/-
Metadata stripping makes progress (`progresses_iff`): the walks over boxes, elements,
blocks, chunks and pages end within as many passes as the file has bytes, and the walk
over an MP3's tags does so where no Lyrics3 tag gives its size as a number below -14.
-/
import Nostrautica.Media.Bytes
import Nostrautica.Media.StripMetadata

set_option linter.unusedSectionVars false

namespace Nostrautica.Media

open Js Walk

section Slices

variable {b bytes : Bytes} {start stop offset len i : Nat}

@[simp] theorem length_slice : (slice b start stop).length = min stop b.length - start := by
  rw [slice, List.length_drop, List.length_take]

@[simp] theorem length_set : (set b offset bytes).length = b.length := List.length_mapIdx

@[simp] theorem length_zero : (zero b start stop).length = b.length := List.length_mapIdx

@[simp] theorem length_ascii : (ascii b offset len).length = len := by simp [ascii]

/-- A byte of a slice is one of what it is cut from. -/
theorem u8_slice (h : start + i < stop) : u8 (slice b start stop) i = u8 b (start + i) := by
  rw [u8, u8, slice, List.getD_eq_getElem?_getD, List.getD_eq_getElem?_getD, List.getElem?_drop, List.getElem?_take_of_lt h]

/-- The text in a slice is one of what it is cut from. -/
theorem ascii_slice (h : start + offset + len ≤ stop) : ascii (slice b start stop) offset len = ascii b (start + offset) len := by
  refine List.map_congr_left fun i hi => ?_
  have := List.mem_range.1 hi
  rw [u8_slice (by omega), Nat.add_assoc]

end Slices

variable {file b : Bytes} {fuel offset limit base start stop len : Nat} {α : Type}

/-- It has ended, whatever it returns. -/
abbrev Halts (m : Strip α) : Prop := Ends m fun _ => True

theorem ends_fail {why : String} {P : α → Prop} : Ends (fail why : Strip α) P := .failed

theorem ends_readAt : Ends (readAt file start len) fun b => b.length = len ∧ start + len ≤ file.length := by
  unfold readAt
  refine .ite (fun _ => ends_fail) fun h => .done ⟨?_, by omega⟩
  rw [slice, List.length_drop, List.length_take]
  omega

/-! ## ISO-BMFF -/

/-- A box begins at an offset or after it, and ends inside what it was read from. -/
structure Box.Within (c : Box) (offset stop : Nat) : Prop where
  start : offset ≤ c.start
  header : c.start + 8 ≤ c.payload
  payload : c.payload ≤ c.stop
  stop : c.stop ≤ stop

/-- What is left in a box, and what is left after it, is less than before it. -/
theorem Box.Within.shrinks {c : Box} {offset stop : Nat} (h : c.Within offset stop) :
    c.stop - c.payload < stop - offset ∧ stop - c.stop < stop - offset := by
  have := h.start
  have := h.header
  have := h.payload
  have := h.stop
  omega

theorem ends_u64be : Halts (u64be b offset) := .ite (fun _ => ends_fail) fun _ => .done trivial

theorem ends_boxSize : Halts (boxSize b offset limit) := by
  unfold boxSize
  refine .ite (fun _ => .ite (fun _ => ends_fail) fun _ => ends_u64be) fun _ => ?_
  exact .ite (fun _ => .done trivial) fun _ => .done trivial

theorem ends_parseBox : Ends (parseBox b offset limit base) (Box.Within · (base + offset) (base + limit)) := by
  unfold parseBox
  refine .ite (fun _ => ends_fail) fun h => Ends.bind ends_boxSize fun size _ => .ite (fun _ => ends_fail) fun hs => .done ?_
  have hheader : 8 ≤ if u32be b offset = 1 then 16 else 8 := by split <;> omega
  constructor <;> simp only [Box.payload] <;> omega

theorem ends_nextChild : Ends (nextChild b offset stop) fun c? => ∀ c, c? = some c → c.Within offset stop := by
  unfold nextChild
  refine .ite (fun _ => .done nofun) fun h => .ite (fun _ => .ite (fun _ => .done nofun) fun _ => ends_fail) fun _ => ?_
  refine Ends.map ends_parseBox fun c hc d hd => ?_
  cases hd
  simpa using hc

theorem ends_findChild {parent : Box} {type : JsString} (hfuel : parent.stop - parent.payload < fuel) :
    Ends (findChild fuel b parent type) fun c? => ∀ c, c? = some c → c.Within parent.payload parent.stop := by
  refine Ends.loop (μ := fun offset => parent.stop - offset) (I := fun offset => parent.payload ≤ offset) (fun offset ho => ?_) le_rfl hfuel
  unfold findPass
  refine Ends.bind ends_nextChild fun c? hc => ?_
  cases c? with
  | none => exact .done nofun
  | some c =>
    have hw := hc c rfl
    refine .ite (fun _ => .done fun d hd => ?_) fun _ => .done ⟨?_, hw.shrinks.2⟩
    · cases hd
      exact { hw with start := ho.trans hw.start }
    · have := hw.start
      have := hw.header
      have := hw.payload
      omega

theorem ends_requireChild {parent : Box} {type : JsString} {why : String} (hfuel : parent.stop - parent.payload < fuel) :
    Ends (requireChild fuel b parent type why) (Box.Within · parent.payload parent.stop) := by
  unfold requireChild
  refine Ends.bind (ends_findChild hfuel) fun c? hc => ?_
  cases c? with
  | none => exact ends_fail
  | some c => exact .done (hc c rfl)

theorem ends_trackHandler {trak : Box} (hfuel : trak.stop - trak.payload < fuel) : Halts (trackHandler fuel b trak) := by
  unfold trackHandler
  refine Ends.bind (ends_requireChild hfuel) fun mdia hm => ?_
  refine Ends.bind (ends_requireChild (hm.shrinks.1.trans hfuel)) fun hdlr _ => ?_
  exact .ite (fun _ => ends_fail) fun _ => .done trivial

theorem ends_readOffsets {p w : Nat} : ∀ is : List Nat, Halts (readOffsets b p w is)
  | [] => .done trivial
  | i :: is => by
    have hoffset : Halts (offsetAt b p w i) := .ite (fun _ => ends_u64be) fun _ => .done trivial
    exact Ends.bind hoffset fun v _ => Ends.bind (ends_readOffsets is) fun _ _ => .done trivial

theorem ends_readTable {t : SampleTables} {c : Box} : Halts (readTable b t c) := by
  unfold readTable
  refine .ite (fun _ => .ite (fun _ => ends_fail) fun _ => .ite (fun _ => ends_fail) fun _ => .done trivial) fun _ => ?_
  refine .ite (fun _ => .ite (fun _ => ends_fail) fun _ => .ite (fun _ => ends_fail) fun _ => .ite (fun _ => ends_fail)
    fun _ => .done trivial) fun _ => ?_
  refine .ite (fun _ => .ite (fun _ => ends_fail) fun _ => .ite (fun _ => ends_fail) fun _ => ?_) fun _ => ?_
  · exact Ends.bind (ends_readOffsets _) fun _ _ => .done trivial
  · exact .ite (fun _ => .ite (fun _ => ends_fail) fun _ => .ite (fun _ => ends_fail) fun _ => .done trivial) fun _ => .done trivial

theorem ends_tables {stbl : Box} {t : SampleTables} (hfuel : stbl.stop - stbl.payload < fuel) :
    Halts (Walk.loop (tablePass b stbl.stop) fuel (stbl.payload, t)) := by
  refine Ends.loop (μ := fun s => stbl.stop - s.1) (I := fun _ => True) (fun s _ => ?_) trivial hfuel
  refine Ends.bind ends_nextChild fun c? hc => ?_
  cases c? with
  | none => exact .done trivial
  | some c => exact Ends.bind ends_readTable fun t _ => .done ⟨trivial, (hc c rfl).shrinks.2⟩

theorem ends_trackSampleRanges {trak : Box} (hfuel : trak.stop - trak.payload < fuel) : Halts (trackSampleRanges fuel b trak) := by
  unfold trackSampleRanges
  refine Ends.bind (ends_requireChild hfuel) fun mdia hm => ?_
  have hfuel := hm.shrinks.1.trans hfuel
  refine Ends.bind (ends_requireChild hfuel) fun minf hf => ?_
  have hfuel := hf.shrinks.1.trans hfuel
  refine Ends.bind (ends_requireChild hfuel) fun stbl hs => ?_
  refine Ends.bind (ends_tables (hs.shrinks.1.trans hfuel)) fun t _ => .ite (fun _ => .done trivial) fun _ => ?_
  split
  · exact .ite (fun _ => ends_fail) fun _ => .done trivial
  · exact ends_fail

theorem ends_zeroTimes {box : Box} : Halts (zeroTimes b box) := by
  have hlen : Halts (timesLen box.type (u8 b box.payload)) := .ite (fun _ => .done trivial) fun _ => .ite (fun _ => .done trivial) fun _ => ends_fail
  unfold zeroTimes
  exact .ite (fun _ => ends_fail) fun _ => Ends.bind hlen fun _ _ => .ite (fun _ => ends_fail) fun _ => .done trivial

theorem ends_stripBox {walk : Bytes → List (Nat × Nat) → Nat → Nat → Strip (Bytes × List (Nat × Nat))} {fragmented : Bool}
    {ranges : List (Nat × Nat)} {c : Box} (hwalk : Halts (walk b ranges c.payload c.stop)) (hfuel : c.stop - c.payload < fuel) :
    Halts (stripBox walk fragmented fuel b ranges c) := by
  unfold stripBox
  refine .ite (fun _ => .done trivial) fun _ => .ite (fun _ => Ends.bind ends_zeroTimes fun _ _ => .done trivial) fun _ => ?_
  refine .ite (fun _ => Ends.bind (ends_trackHandler hfuel) fun handler _ => .ite (fun _ => ?_) fun _ => hwalk) fun _ => ?_
  · exact .ite (fun _ => ends_fail) fun _ => Ends.bind (ends_trackSampleRanges hfuel) fun _ _ => .done trivial
  · exact .ite (fun _ => hwalk) fun _ => .done trivial

theorem ends_walkBoxes {fragmented : Bool} : ∀ {fuel b ranges offset stop}, stop - offset < fuel →
    Halts (walkBoxes fragmented fuel b ranges offset stop)
  | 0, _, _, _, _, h => absurd h (Nat.not_lt_zero _)
  | fuel + 1, b, ranges, offset, stop, h => by
    unfold walkBoxes
    refine Ends.bind ends_nextChild fun c? hc => ?_
    cases c? with
    | none => exact .done trivial
    | some c =>
      obtain ⟨hin, hafter⟩ := (hc c rfl).shrinks
      have hinside : c.stop - c.payload < fuel := by omega
      exact Ends.bind (ends_stripBox (ends_walkBoxes hinside) hinside) fun p _ => ends_walkBoxes (by omega)

/-- A `moov` that the walk over the top level has found lies in the file. -/
def TopLevel.Sound (file : Bytes) (s : TopLevel) : Prop := ∀ moov, s.moov = some moov → moov.Within 0 file.length

theorem ends_isoPass {s : TopLevel} :
    Ends (isoPass file s) (Decreases (fun s => file.length - s.offset) (fun t => s.Sound file → t.Sound file)
      (fun t => s.Sound file → t.Sound file) s) := by
  unfold isoPass
  refine .ite (fun _ => .done id) fun hlt => Ends.bind ends_readAt fun head _ => Ends.bind ends_parseBox fun box hbox => ?_
  have hstop : file.length - box.stop < file.length - s.offset := by
    have := hbox.start
    have := hbox.header
    have := hbox.payload
    omega
  refine .ite (fun _ => .ite (fun _ => ends_fail) fun _ => .done ⟨fun _ moov hm => ?_, hstop⟩) fun _ => ?_
  · cases hm
    exact { hbox with start := Nat.zero_le _, stop := by have := hbox.stop; omega }
  refine .ite (fun _ => .done ⟨id, hstop⟩) fun _ => .ite (fun _ => .done ⟨id, hstop⟩) fun _ => ?_
  exact .ite (fun _ => .done ⟨id, hstop⟩) fun _ => .done ⟨id, hstop⟩

theorem ends_topLevel (hfuel : file.length < fuel) : Ends (Walk.loop (isoPass file) fuel {}) (TopLevel.Sound file) := by
  refine Ends.loop (μ := fun s => file.length - s.offset) (I := TopLevel.Sound file) (fun s hs => ?_) nofun ((Nat.sub_le _ _).trans_lt hfuel)
  refine ends_isoPass.mono fun pass hpass => ?_
  cases pass with
  | next t => exact ⟨hpass.1 hs, hpass.2⟩
  | stop t => exact hpass hs

theorem ends_sampleEdits {mdats : List (Nat × Nat)} : ∀ dropped : List (Nat × Nat), Halts (sampleEdits mdats dropped)
  | [] => .done trivial
  | (_, _) :: rest => .ite (fun _ => Ends.bind (ends_sampleEdits rest) fun _ _ => .done trivial) fun _ => ends_fail

theorem ends_mergeEdits : ∀ {edits merged : List Edit}, Halts (mergeEdits start stop edits merged)
  | [], _ => .done trivial
  | e :: rest, merged => by
    unfold mergeEdits
    refine .ite (fun _ => ends_fail) fun _ => ?_
    split
    · exact .ite (fun _ => ends_mergeEdits) fun _ => ends_mergeEdits
    · exact .ite (fun _ => ends_fail) fun _ => ends_mergeEdits
    · exact ends_mergeEdits

theorem ends_assemble {edits : List Edit} : Halts (assemble file edits start stop) :=
  Ends.bind ends_mergeEdits fun _ _ => .done trivial

theorem ends_stripIsoBmff (hfuel : file.length < fuel) : Halts (stripIsoBmff fuel file) := by
  unfold stripIsoBmff
  refine Ends.bind (ends_topLevel hfuel) fun top htop => ?_
  cases hm : top.moov with
  | none => exact ends_fail
  | some moov =>
    have hmoov := htop moov hm
    refine .ite (fun _ => ends_fail) fun _ => Ends.bind ends_readAt fun buf _ => Ends.bind (ends_walkBoxes ?_) fun p _ => ?_
    · have := hmoov.stop
      simp only
      omega
    · exact Ends.bind (ends_sampleEdits _) fun _ _ => ends_assemble

/-! ## Matroska -/

/-- An element's data begin after its start, and inside what it was read from. -/
structure Ebml.Within (e : Ebml) (offset stop : Nat) : Prop where
  start : e.start = offset
  data : e.start < e.dataStart
  stop : e.dataStart ≤ stop

theorem ends_parseEbml : Ends (parseEbml b offset limit base) (Ebml.Within · (base + offset) (base + limit)) := by
  unfold parseEbml
  refine .ite (fun _ => ends_fail) fun _ => .ite (fun _ => ends_fail) fun hid => .ite (fun _ => ends_fail) fun _ => ?_
  refine .ite (fun _ => ends_fail) fun _ => .ite (fun _ => ends_fail) fun hsize => .ite (fun _ => ends_fail) fun _ => .done ?_
  exact ⟨rfl, by simp only; omega, by simp only; omega⟩

theorem ends_windowBytes : Halts (windowBytes file start len) := .ite (fun _ => ends_fail) fun _ => .done trivial

theorem ends_readEbml : Ends (readEbml file start limit) (Ebml.Within · start limit) := by
  unfold readEbml
  refine .ite (fun _ => ends_fail) fun hn => Ends.bind ends_windowBytes fun b _ => ends_parseEbml.mono fun e he => ?_
  exact { he with stop := he.stop.trans (by omega) }

theorem ends_ebmlEnd {e : Ebml} : Ends (ebmlEnd e limit) fun stop => e.dataStart ≤ stop ∧ stop ≤ limit := by
  unfold ebmlEnd
  cases e.size with
  | none => exact ends_fail
  | some size => exact .ite (fun _ => ends_fail) fun _ => .done ⟨by omega, by omega⟩

theorem ends_voidHeader {total : Nat} : Halts (voidHeader total) := by
  unfold voidHeader
  split
  · exact .done trivial
  · exact ends_fail

theorem ends_voidInPlace : Halts (voidInPlace b start stop) := Ends.bind ends_voidHeader fun _ _ => .done trivial

theorem ends_voidAll : ∀ {b} (crcs : List (Nat × Nat)), Halts (voidAll b crcs)
  | _, [] => .done trivial
  | _, (_, _) :: rest => Ends.bind ends_voidInPlace fun _ _ => ends_voidAll rest

theorem ends_voidCrcs {changed : Bool} {crcs : List (Nat × Nat)} : Halts (voidCrcs b changed crcs) := by
  unfold voidCrcs
  exact .ite (fun _ => Ends.bind (ends_voidAll crcs) fun _ _ => .done trivial) fun _ => .done trivial

theorem ends_voidChildren {drop : Bytes → Ebml → Nat → Strip Bool} {into : List Nat} {bound : Nat}
    (hdrop : ∀ b c cEnd, cEnd ≤ bound → Halts (drop b c cEnd)) :
    ∀ {fuel b offset stop changed crcs}, stop ≤ bound → stop - offset < fuel → Halts (voidChildren drop into fuel b offset stop changed crcs)
  | 0, _, _, _, _, _, _, h => absurd h (Nat.not_lt_zero _)
  | fuel + 1, b, offset, stop, changed, crcs, hstop, h => by
    unfold voidChildren
    refine .ite (fun _ => ends_voidCrcs) fun hlt => Ends.bind ends_parseEbml fun c hc => ?_
    cases hsize : c.size with
    | none => exact ends_fail
    | some size =>
      have := hc.start
      have := hc.data
      refine .ite (fun _ => ends_fail) fun hend => ?_
      have hafter {b changed crcs} : Halts (voidChildren drop into fuel b (c.dataStart + size) stop changed crcs) :=
        ends_voidChildren hdrop hstop (by omega)
      have hinside {b changed crcs} : Halts (voidChildren drop into fuel b c.dataStart (c.dataStart + size) changed crcs) :=
        ends_voidChildren hdrop (by omega) (by omega)
      refine .ite (fun _ => hafter) fun _ => Ends.bind (hdrop _ _ _ (by omega)) fun dropped _ => ?_
      refine .ite (fun _ => Ends.bind ends_voidInPlace fun _ _ => hafter) fun _ => ?_
      exact .ite (fun _ => Ends.bind hinside fun _ _ => hafter) fun _ => hafter

theorem ends_seekTarget (hfuel : stop - start < fuel) : Halts (seekTarget fuel b start stop) := by
  refine Ends.loop (μ := fun offset => stop - offset) (I := fun _ => True) (fun s _ => ?_) trivial hfuel
  unfold seekPass
  refine .ite (fun _ => .done trivial) fun _ => Ends.bind ends_parseEbml fun g hg => ?_
  cases hsize : g.size with
  | none => exact ends_fail
  | some size =>
    have := hg.start
    have := hg.data
    refine .ite (fun _ => ends_fail) fun _ => .ite (fun _ => .ite (fun _ => ends_fail) fun _ => .done trivial) fun _ => ?_
    have hdec : stop - (g.dataStart + size) < stop - s := by omega
    exact .done ⟨trivial, hdec⟩

theorem ends_dropChild {master cEnd : Nat} {c : Ebml} (hfuel : cEnd < fuel) : Halts (dropChild fuel master b c cEnd) := by
  unfold dropChild
  refine .ite (fun _ => .done trivial) fun _ => .ite (fun _ => .done trivial) fun _ => ?_
  exact .ite (fun _ => Ends.map (ends_seekTarget (by omega)) fun _ _ => trivial) fun _ => .done trivial

theorem ends_stripMkvMaster {el : Ebml} (hfuel : stop < fuel) : Halts (stripMkvMaster fuel file el stop) := by
  unfold stripMkvMaster
  refine .ite (fun _ => ends_fail) fun _ => Ends.bind ends_readAt fun buf _ => ?_
  refine Ends.bind (ends_voidChildren (fun b c cEnd (hc : cEnd ≤ stop) => ends_dropChild (by omega)) (by omega) (by omega)) fun p _ => ?_
  exact .done trivial

theorem ends_clusterPass {segEnd pos : Nat} :
    Ends (clusterPass file segEnd pos) (Decreases (segEnd - ·) (pos ≤ ·) (pos ≤ ·) pos) := by
  unfold clusterPass
  refine .ite (fun _ => .done le_rfl) fun _ => Ends.bind ends_readEbml fun c hc => .ite (fun _ => .done le_rfl) fun _ => ?_
  refine Ends.map ends_ebmlEnd fun stop hstop => ?_
  have := hc.start
  have := hc.data
  have hdec : segEnd - stop < segEnd - pos := by omega
  exact ⟨by omega, hdec⟩

theorem ends_cluster {segEnd : Nat} (hfuel : segEnd < fuel) : Ends (Walk.loop (clusterPass file segEnd) fuel start) (start ≤ ·) := by
  refine Ends.loop (μ := (segEnd - ·)) (I := (start ≤ ·)) (fun pos hpos => ?_) le_rfl ((Nat.sub_le _ _).trans_lt hfuel)
  refine ends_clusterPass.mono fun pass hpass => ?_
  cases pass with
  | next t => exact ⟨hpos.trans hpass.1, hpass.2⟩
  | stop r => exact hpos.trans hpass

theorem ends_segmentPass {segEnd : Nat} {s : Nat × List Edit} (hfuel : segEnd < fuel) :
    Ends (segmentPass fuel file segEnd s) (Decreases (fun s => segEnd - s.1) (fun _ => True) (fun _ => True) s) := by
  unfold segmentPass
  refine .ite (fun _ => .done trivial) fun hlt => Ends.bind ends_readEbml fun el hel => ?_
  have := hel.start
  have := hel.data
  refine .ite (fun _ => .ite (fun _ => ends_fail) fun _ => Ends.bind (ends_cluster hfuel) fun pos hpos => ?_) fun _ => ?_
  · exact .done ⟨trivial, by simp only; omega⟩
  refine Ends.bind ends_ebmlEnd fun stop hstop => ?_
  have hdec : segEnd - stop < segEnd - s.1 := by omega
  refine .ite (fun _ => Ends.bind ends_voidHeader fun h _ => .done ⟨trivial, hdec⟩) fun _ => ?_
  exact .ite (fun _ => Ends.bind (ends_stripMkvMaster (by omega)) fun _ _ => .done ⟨trivial, hdec⟩) fun _ => .done ⟨trivial, hdec⟩

theorem ends_segment {segEnd : Nat} {edits : List Edit} (hfuel : segEnd < fuel) :
    Halts (Walk.loop (segmentPass fuel file segEnd) fuel (start, edits)) :=
  Ends.loop (fun _ _ => ends_segmentPass hfuel) trivial ((Nat.sub_le _ _).trans_lt hfuel)

theorem ends_segmentEnd {top : Ebml} (htop : top.dataStart ≤ file.length) :
    Ends (segmentEnd file top) fun stop => top.dataStart ≤ stop ∧ stop ≤ file.length :=
  .ite (fun _ => .done ⟨htop, le_rfl⟩) fun _ => ends_ebmlEnd

theorem ends_mkvPass {s : MkvTop} (hfuel : file.length < fuel) :
    Ends (mkvPass fuel file s) (Decreases (fun s => file.length - s.offset) (fun _ => True) (fun _ => True) s) := by
  unfold mkvPass
  refine .ite (fun _ => .done trivial) fun _ => Ends.bind ends_readEbml fun top htop => ?_
  have := htop.start
  have := htop.data
  refine .ite (fun _ => Ends.bind ends_ebmlEnd fun offset ho => .done ⟨trivial, by simp only; omega⟩) fun _ => ?_
  refine .ite (fun _ => ends_fail) fun _ => Ends.bind (ends_segmentEnd htop.stop) fun segEnd hseg => ?_
  exact Ends.bind (ends_segment (by omega)) fun edits _ => .done ⟨trivial, by simp only; omega⟩

theorem ends_stripMatroska (hfuel : file.length < fuel) : Halts (stripMatroska fuel file) := by
  unfold stripMatroska
  refine Ends.bind ends_readEbml fun header _ => .ite (fun _ => ends_fail) fun _ => Ends.bind ends_ebmlEnd fun offset _ => ?_
  refine Ends.bind (Ends.loop (fun s _ => ends_mkvPass hfuel) trivial ((Nat.sub_le _ _).trans_lt hfuel)) fun top _ => ?_
  exact .ite (fun _ => ends_fail) fun _ => ends_assemble

/-! ## FLAC and WAV -/

theorem ends_flacPass {s : FlacBlocks} :
    Ends (flacPass file stop s) (Decreases (fun s => stop - s.offset) (fun _ => True) (fun _ => True) s) := by
  unfold flacPass
  refine .ite (fun _ => ends_fail) fun _ => Ends.bind ends_readAt fun h _ => ?_
  refine .ite (fun _ => ends_fail) fun _ => .ite (fun _ => ends_fail) fun _ => .done ?_
  split
  · exact trivial
  · exact ⟨trivial, by simp only; omega⟩

theorem ends_stripFlac (hfuel : stop < fuel) : Halts (stripFlac fuel file start stop) := by
  unfold stripFlac
  refine Ends.bind ends_readAt fun marker _ => .ite (fun _ => ends_fail) fun _ => ?_
  refine Ends.bind (Ends.loop (fun s _ => ends_flacPass) trivial ((Nat.sub_le _ _).trans_lt hfuel)) fun blocks _ => ?_
  exact Ends.bind ends_readAt fun sync _ => .ite (fun _ => ends_fail) fun _ => ends_assemble

theorem ends_wavPass {s : WavChunks} :
    Ends (wavPass file stop s) (Decreases (fun s => stop - s.offset) (fun _ => True) (fun _ => True) s) := by
  unfold wavPass
  refine .ite (fun _ => .done trivial) fun _ => Ends.bind ends_readAt fun h _ => ?_
  exact .ite (fun _ => .ite (fun _ => .done trivial) fun _ => ends_fail) fun _ => .done ⟨trivial, by simp only; omega⟩

theorem ends_stripWav (hfuel : file.length < fuel) : Halts (stripWav fuel file) := by
  unfold stripWav
  refine Ends.bind ends_readAt fun head _ => .ite (fun _ => ends_fail) fun _ => ?_
  refine Ends.bind (Ends.loop (fun s _ => ends_wavPass) trivial (by simp only; omega)) fun chunks _ => ?_
  exact .ite (fun _ => ends_fail) fun _ => ends_assemble

/-! ## Ogg -/

theorem ends_readOggPage : Ends (readOggPage file offset) fun page => offset < page.stop ∧ page.stop ≤ file.length := by
  unfold readOggPage
  refine .ite (fun _ => ends_fail) fun _ => Ends.bind ends_windowBytes fun h _ => .ite (fun _ => ends_fail) fun _ => ?_
  refine .ite (fun _ => ends_fail) fun _ => Ends.bind ends_windowBytes fun lacing _ => ?_
  exact .ite (fun _ => ends_fail) fun _ => .done ⟨by simp only; omega, by simp only; omega⟩

theorem ends_readPacket : ∀ spans : List OggSpan, Halts (readPacket file spans)
  | [] => .done trivial
  | _ :: rest => Ends.bind ends_readAt fun _ _ => Ends.bind (ends_readPacket rest) fun _ _ => .done trivial

theorem ends_oggCodec : Halts (oggCodec b) := by
  unfold oggCodec
  refine .ite (fun _ => .done trivial) fun _ => .ite (fun _ => .done trivial) fun _ => ?_
  exact .ite (fun _ => .ite (fun _ => ends_fail) fun _ => .done trivial) fun _ => ends_fail

theorem ends_oggCleanHeader {codec : OggCodec} {i : Nat} : Halts (oggCleanHeader codec i b) := by
  unfold oggCleanHeader
  cases codec with
  | opus => exact .ite (fun _ => ends_fail) fun _ => .done trivial
  | vorbis =>
    refine .ite (fun _ => ends_fail) fun _ => .ite (fun _ => .done trivial) fun _ => ?_
    exact .ite (fun _ => ends_fail) fun _ => .done trivial
  | flac =>
    refine .ite (fun _ => ends_fail) fun _ => .ite (fun _ => .done trivial) fun _ => ?_
    exact .ite (fun _ => .ite (fun _ => ends_fail) fun _ => .done trivial) fun _ => .done trivial

theorem ends_lacePackets {page : Nat} : ∀ {lacing : List Nat} {pos : Nat} {s : OggStream}, Halts (lacePackets file page lacing pos s)
  | [], _, _ => .done trivial
  | v :: lacing, pos, s => by
    unfold lacePackets
    refine .ite (fun _ => .done trivial) fun _ => .ite (fun _ => .ite (fun _ => ?_) fun _ => ends_lacePackets) fun _ => ends_lacePackets
    exact Ends.bind (ends_readPacket _) fun _ _ => Ends.bind ends_oggCodec fun _ _ => ends_lacePackets

theorem ends_pageStream {streams : List (Nat × OggStream)} {page : OggPage} : Halts (pageStream streams page) := by
  unfold pageStream
  refine .ite (fun _ => .ite (fun _ => ends_fail) fun _ => .done trivial) fun _ => ?_
  split
  · exact .done trivial
  · exact ends_fail

theorem ends_oggPass {f : OggFile} :
    Ends (oggPass file f) (Decreases (fun f => file.length - f.offset) (fun _ => True) (fun _ => True) f) := by
  unfold oggPass
  refine .ite (fun _ => .done trivial) fun _ => Ends.bind ends_readOggPage fun page hpage => Ends.bind ends_pageStream fun s _ => ?_
  have hdec : file.length - page.stop < file.length - f.offset := by omega
  refine .ite (fun _ => .done ⟨trivial, hdec⟩) fun _ => .ite (fun _ => ends_fail) fun _ => ?_
  exact Ends.bind ends_lacePackets fun _ _ => .done ⟨trivial, hdec⟩

theorem ends_patchedPage {headerPages : List (Nat × Nat)} {pages : List (Nat × Bytes)} {page : Nat} :
    Halts (patchedPage file headerPages pages page) := by
  unfold patchedPage
  split
  · exact .done trivial
  · exact Ends.bind ends_readAt fun buf _ => .ite (fun _ => ends_fail) fun _ => .done trivial

theorem ends_patchSpans {headerPages : List (Nat × Nat)} {clean : Bytes} : ∀ {spans k pages},
    Halts (patchSpans file headerPages clean spans k pages)
  | [], _, _ => .done trivial
  | _ :: _, _, _ => Ends.bind ends_patchedPage fun _ _ => ends_patchSpans

theorem ends_patchPackets {headerPages : List (Nat × Nat)} {codec : OggCodec} : ∀ {packets i pages},
    Halts (patchPackets file headerPages codec packets i pages)
  | [], _, _ => .done trivial
  | spans :: packets, i, pages => by
    unfold patchPackets
    refine Ends.bind (ends_readPacket spans) fun b _ => Ends.bind ends_oggCleanHeader fun clean? _ => ?_
    cases clean? with
    | none => exact ends_patchPackets
    | some clean => exact Ends.bind ends_patchSpans fun _ _ => ends_patchPackets

theorem ends_patchStreams {headerPages : List (Nat × Nat)} : ∀ {streams pages}, Halts (patchStreams file headerPages streams pages)
  | [], _ => .done trivial
  | (_, s) :: streams, pages => by
    unfold patchStreams
    cases hs : s.codec with
    | none => exact ends_fail
    | some codec => exact .ite (fun _ => ends_fail) fun _ => Ends.bind ends_patchPackets fun _ _ => ends_patchStreams

theorem ends_stripOgg (hfuel : file.length < fuel) : Halts (stripOgg fuel file) := by
  unfold stripOgg
  refine Ends.bind (Ends.loop (fun f _ => ends_oggPass) trivial ((Nat.sub_le _ _).trans_lt hfuel)) fun f _ => ?_
  exact .ite (fun _ => ends_fail) fun _ => Ends.bind ends_patchStreams fun _ _ => ends_assemble

/-! ## MP3 -/

theorem ends_syncsafe : Halts (syncsafe b offset) := .ite (fun _ => ends_fail) fun _ => .done trivial

theorem ends_headPass : Ends (headPass file start) (Decreases (fun start => file.length - start) (fun _ => True) (fun _ => True) start) := by
  unfold headPass
  refine .ite (fun _ => ends_fail) fun _ => Ends.bind ends_readAt fun h _ => .ite (fun _ => .done trivial) fun _ => ?_
  refine Ends.bind ends_syncsafe fun size _ => .ite (fun _ => ends_fail) fun _ => .done ⟨trivial, by simp only; omega⟩

theorem ends_mp3Body (hfuel : file.length < fuel) : Halts (mp3Body fuel file) := by
  unfold mp3Body
  refine Ends.bind (Ends.loop (fun s _ => ends_headPass) trivial ((Nat.sub_le _ _).trans_lt hfuel)) fun start _ => ?_
  exact Ends.bind ends_readAt fun probe _ => .ite (fun _ => .done trivial) fun _ => .ite (fun _ => ends_fail) fun _ => .done trivial

theorem ends_id3v1 : Ends (id3v1 file start stop) fun stop? => ∀ stop', stop? = some stop' → stop' < stop := by
  unfold id3v1
  refine .ite (fun _ => Ends.bind ends_readAt fun v1 _ => .ite (fun _ => .ite (fun _ => ?_) fun _ => ?_) fun _ => .done nofun) fun _ => .done nofun
  · refine Ends.bind ends_readAt fun extended _ => .done fun stop' h => ?_
    rw [← Option.some.inj h]
    split <;> omega
  · refine .done fun stop' h => ?_
    rw [← Option.some.inj h]
    omega

theorem ends_apeTag : Ends (apeTag file start stop) fun stop? => ∀ stop', stop? = some stop' → stop' < stop := by
  unfold apeTag
  refine .ite (fun _ => Ends.bind ends_readAt fun ape _ => .ite (fun _ => .ite (fun _ => ends_fail) fun hsize => ?_) fun _ => .done nofun)
    fun _ => .done nofun
  refine .done fun stop' h => ?_
  cases h
  omega

theorem ends_appendedId3 : Ends (appendedId3 file start stop) fun stop? => ∀ stop', stop? = some stop' → stop' < stop := by
  unfold appendedId3
  refine .ite (fun _ => Ends.bind ends_readAt fun f _ => .ite (fun _ => ?_) fun _ => .done nofun) fun _ => .done nofun
  refine Ends.bind ends_syncsafe fun size _ => .ite (fun _ => ends_fail) fun _ => .done fun stop' h => ?_
  cases h
  omega

/-- The Lyrics3 tag that ends at `stop` gives its size as `n`. -/
structure LyricsSize (file : Bytes) (start stop : Nat) (n : Int) : Prop where
  room : 15 ≤ stop - start
  inside : stop ≤ file.length
  marker : ascii file (stop - 9) 9 = js "LYRICS200"
  size : (toNumber (ascii file (stop - 15) 6)).toInt? = some n

theorem ends_lyrics3 : Ends (lyrics3 file start stop) fun stop? => ∀ stop', stop? = some stop' →
    ∃ n, LyricsSize file start stop n ∧ stop' = (stop - (n + 15) : Int).toNat := by
  unfold lyrics3
  refine .ite (fun hroom => ?_) fun _ => .done nofun
  by_cases hin : stop - 15 + 15 > file.length
  · rw [readAt, if_pos hin]
    exact ends_fail
  rw [readAt, if_neg hin, done_bind]
  refine .ite (fun hmarker => ?_) fun _ => .done nofun
  rw [ascii_slice (by omega), show stop - 15 + 6 = stop - 9 by omega] at hmarker
  rw [ascii_slice (by omega), Nat.add_zero]
  split
  · exact ends_fail
  · next n hn => exact .ite (fun _ => ends_fail) fun _ => .done fun stop' h => ⟨n, ⟨hroom, by omega, hmarker, hn⟩, by cases h; rfl⟩

/-- What `lyrics3` comes to where the size is small enough. -/
theorem lyrics3_eq {n : Int} (h : LyricsSize file start stop n) (hn : n + 15 ≤ (stop - start : Nat)) :
    lyrics3 file start stop = .done (some (stop - (n + 15) : Int).toNat) := by
  have := h.room
  have := h.inside
  have hin : ¬stop - 15 + 15 > file.length := by omega
  rw [lyrics3, if_pos h.room, readAt, if_neg hin, done_bind, ascii_slice (by omega), ascii_slice (by omega),
    show stop - 15 + 6 = stop - 9 by omega, Nat.add_zero, if_pos h.marker]
  simp only [h.size]
  rw [if_neg (by omega)]

/-- The tag at the end that a pass takes off is a Lyrics3 one with a negative size that does
not count its own footer. -/
structure NegativeLyrics (file : Bytes) (start stop : Nat) : Prop where
  id3v1 : id3v1 file start stop = .done none
  apeTag : apeTag file start stop = .done none
  lyrics : ∃ n, LyricsSize file start stop n ∧ n ≤ -15

/-- A pass over the tags at the end takes something off where it meets no such tag. -/
theorem ends_tailPass (h : ¬NegativeLyrics file start stop) :
    Ends (tailPass file start stop) fun pass => ∀ stop', pass = .next stop' → stop' < stop := by
  have hv1 : Ends (id3v1 file start stop) _ := ends_id3v1
  have hape : Ends (apeTag file start stop) _ := ends_apeTag
  unfold tailPass
  cases hid : id3v1 file start stop with
  | running => exact absurd hid hv1.1
  | failed e => exact .failed
  | done stop? =>
    cases stop? with
    | some stop₁ => exact .done fun stop' he => by cases he; exact hv1.2 _ hid _ rfl
    | none =>
      cases ha : apeTag file start stop with
      | running => exact absurd ha hape.1
      | failed e => exact .failed
      | done stop? =>
        cases stop? with
        | some stop₁ => exact .done fun stop' he => by cases he; exact hape.2 _ ha _ rfl
        | none =>
          simp only [done_bind]
          refine Ends.bind ends_lyrics3 fun stop? hlyrics => ?_
          cases stop? with
          | some stop₁ =>
            refine .done fun stop' he => ?_
            cases he
            obtain ⟨n, hn, hstop⟩ := hlyrics _ rfl
            have hsize : ¬n ≤ -15 := fun hneg => h ⟨hid, ha, n, hn, hneg⟩
            have := hn.room
            omega
          | none =>
            refine Ends.bind ends_appendedId3 fun stop? hid3 => ?_
            cases stop? with
            | some stop₁ => exact .done fun stop' he => by cases he; exact hid3 _ rfl
            | none => exact .done fun stop' he => by cases he

/-- A pass that meets such a tag goes on, and takes nothing off. -/
theorem NegativeLyrics.tailPass_eq (h : NegativeLyrics file start stop) :
    ∃ stop', stop ≤ stop' ∧ tailPass file start stop = .done (.next stop') := by
  obtain ⟨n, hn, hneg⟩ := h.lyrics
  have := hn.room
  refine ⟨(stop - (n + 15) : Int).toNat, by omega, ?_⟩
  unfold tailPass
  rw [h.id3v1, done_bind]
  simp only
  rw [h.apeTag, done_bind]
  simp only
  rw [lyrics3_eq hn (by omega), done_bind]

/-- `stripMp3` comes to its loop over the tags at the end, with the audio from `start` on. -/
structure AudioFrom (file : Bytes) (start : Nat) : Prop where
  length : 12 ≤ file.length
  container : sniffContainer (slice file 0 (min file.length 64)) = some .mp3
  body : ∃ fuel, mp3Body fuel file = .done (.audio start)

/-- Where the loop over the tags at the end comes to. -/
inductive TailAt (file : Bytes) (start : Nat) : Nat → Prop
  | whole : TailAt file start file.length
  | pass {stop stop' : Nat} : TailAt file start stop → tailPass file start stop = .done (.next stop') → TailAt file start stop'

theorem ends_stripMp3 (hfuel : file.length < fuel)
    (h : ∀ start stop, mp3Body fuel file = .done (.audio start) → TailAt file start stop → ¬NegativeLyrics file start stop) :
    Halts (stripMp3 fuel file) := by
  unfold stripMp3
  cases hbody : mp3Body fuel file with
  | running => exact absurd hbody (ends_mp3Body hfuel).1
  | failed e => exact .failed
  | done body =>
    cases body with
    | flac start => exact ends_stripFlac hfuel
    | audio start =>
      simp only [done_bind]
      refine Ends.bind (P := fun _ => True) ?_ fun stop _ => .ite (fun _ => ends_fail) fun _ => ends_assemble
      refine Ends.loop (μ := id) (I := TailAt file start) (fun stop hstop => ?_) .whole hfuel
      have hpass := ends_tailPass (h start stop hbody hstop)
      refine ⟨hpass.1, fun pass hdone => ?_⟩
      cases pass with
      | stop r => trivial
      | next stop' => exact ⟨.pass hstop hdone, hpass.2 _ hdone stop' rfl⟩

/-! ## Every walk -/

/-- A pass of a loop that goes on leaves a position after the one it began at. -/
def Advances {σ ρ : Type} (pos : σ → Nat) (body : σ → Strip (Pass σ ρ)) : Prop := ∀ s t, body s = .done (.next t) → pos s < pos t

theorem advances_of_decreases {σ ρ : Type} {p : σ → Nat} {bound : Nat} {I : σ → σ → Prop} {P : σ → ρ → Prop}
    {body : σ → Strip (Pass σ ρ)} (h : ∀ s, Ends (body s) (Decreases (fun s => bound - p s) (I s) (P s) s)) : Advances p body := by
  intro s t hst
  have hlt : bound - p t < bound - p s := ((h s).2 _ hst).2
  omega

/-- Stripping makes progress: the walks move on with each pass, the one over an MP3's tags
moves back with each, and the call ends. -/
structure Progresses (file : Bytes) : Prop where
  boxes : ∀ b offset stop c, nextChild b offset stop = .done (some c) → offset < c.payload ∧ offset < c.stop
  topLevelBoxes : Advances TopLevel.offset (isoPass file)
  elements : ∀ b offset limit e, parseEbml b offset limit 0 = .done e → offset < e.dataStart
  clusters : ∀ segEnd, Advances id (clusterPass file segEnd)
  segments : ∀ fuel segEnd, segEnd < fuel → Advances Prod.fst (segmentPass fuel file segEnd)
  topLevelElements : ∀ fuel, file.length < fuel → Advances MkvTop.offset (mkvPass fuel file)
  blocks : ∀ stop, Advances FlacBlocks.offset (flacPass file stop)
  chunks : ∀ stop, Advances WavChunks.offset (wavPass file stop)
  pages : Advances OggFile.offset (oggPass file)
  leadingTags : Advances id (headPass file)
  trailingTags : ∀ start stop stop', AudioFrom file start → TailAt file start stop → tailPass file start stop = .done (.next stop') →
    stop' < stop
  ends : ∀ fuel, file.length < fuel → stripMediaMetadata fuel file ≠ .running

theorem ends_stripMediaMetadata (hfuel : file.length < fuel)
    (h : ∀ start stop, AudioFrom file start → TailAt file start stop → ¬NegativeLyrics file start stop) :
    Halts (stripMediaMetadata fuel file) := by
  unfold stripMediaMetadata
  refine .ite (fun _ => ends_fail) fun hlen => ?_
  by_cases hread : 0 + min file.length 64 > file.length
  · rw [readAt, if_pos hread]
    exact ends_fail
  rw [readAt, if_neg hread, done_bind, Nat.zero_add]
  cases hsniff : sniffContainer (slice file 0 (min file.length 64)) with
  | none => exact ends_fail
  | some container =>
    cases container with
    | isobmff => exact ends_stripIsoBmff hfuel
    | matroska => exact ends_stripMatroska hfuel
    | mp3 => exact ends_stripMp3 hfuel fun start stop hbody => h start stop ⟨by omega, hsniff, fuel, hbody⟩
    | flac => exact ends_stripFlac hfuel
    | wav => exact ends_stripWav hfuel
    | ogg => exact ends_stripOgg hfuel

/-- **Stripping makes progress exactly where no trailing tag that the walk over an MP3's tags
meets is a Lyrics3 one with a size below -14**: such a tag moves the walk on, or leaves it
where it was. -/
theorem progresses_iff :
    Progresses file ↔ ∀ start stop, AudioFrom file start → TailAt file start stop → ¬NegativeLyrics file start stop := by
  constructor
  · intro h start stop haudio hstop hneg
    obtain ⟨stop', hle, hpass⟩ := hneg.tailPass_eq
    exact absurd (h.trailingTags start stop stop' haudio hstop hpass) (by omega)
  intro h
  constructor
  case boxes =>
    intro b offset stop c hc
    have hw := ends_nextChild.2 _ hc c rfl
    have := hw.start
    have := hw.header
    have := hw.payload
    omega
  case topLevelBoxes => exact advances_of_decreases fun s => ends_isoPass
  case elements =>
    intro b offset limit e he
    have hw := ends_parseEbml.2 _ he
    have := hw.start
    have := hw.data
    omega
  case clusters => exact fun segEnd => advances_of_decreases (p := id) fun pos => ends_clusterPass
  case segments => exact fun fuel segEnd hfuel => advances_of_decreases fun s => ends_segmentPass hfuel
  case topLevelElements => exact fun fuel hfuel => advances_of_decreases fun s => ends_mkvPass hfuel
  case blocks => exact fun stop => advances_of_decreases fun s => ends_flacPass
  case chunks => exact fun stop => advances_of_decreases fun s => ends_wavPass
  case pages => exact advances_of_decreases fun f => ends_oggPass
  case leadingTags => exact advances_of_decreases (p := id) fun start => ends_headPass
  case trailingTags =>
    intro start stop stop' haudio hstop hpass
    exact (ends_tailPass (h start stop haudio hstop)).2 _ hpass stop' rfl
  case ends => exact fun fuel hfuel => (ends_stripMediaMetadata hfuel h).1

/-! ## A walk that goes on for ever -/

namespace Small

/-- An MPEG frame header and a Lyrics3 tag whose size is -15. -/
def looped : Bytes := [0xff, 0xfb, 0x90, 0x00] ++ (js "-00015LYRICS200").map fun c => UInt8.ofNat c.val

theorem tailPass_looped : tailPass looped 0 19 = .done (.next 19) := by decide +kernel

theorem sniffed_looped : sniffContainer (slice looped 0 19) = some .mp3 := by decide

theorem mp3Body_looped (fuel : Nat) : mp3Body (fuel + 1) looped = .done (.audio 0) := rfl

theorem looped_runs (fuel : Nat) : stripMediaMetadata fuel looped = .running := by
  have hread : stripMediaMetadata fuel looped = stripMp3 fuel looped := by
    rw [stripMediaMetadata, if_neg (by decide), show readAt looped 0 (min looped.length 64) = .done (slice looped 0 19) from rfl, done_bind,
      sniffed_looped]
  rw [hread]
  cases fuel with
  | zero => rfl
  | succ fuel =>
    rw [stripMp3, mp3Body_looped, done_bind]
    simp only
    rw [show looped.length = 19 from rfl, loop_running tailPass_looped, running_bind]

end Small

theorem looped_goes_on : (∀ fuel, stripMediaMetadata fuel Small.looped = .running) ∧ ¬Progresses Small.looped := by
  refine ⟨Small.looped_runs, fun h => ?_⟩
  exact h.ends (Small.looped.length + 1) (Nat.lt_succ_self _) (Small.looped_runs _)

end Nostrautica.Media
