/-
A logout and the next login, on the rows of an account: the pieces of the snapshot are the text, and
the rows come back unless a value has an object with an own property `__u8__`.
-/
import Nostrautica.App.ChatSnapshot
import Nostrautica.Coordinator.ValueCodec
import Nostrautica.Js.Cut
import Nostrautica.Store.AtRestFacts

namespace Nostrautica.ChatSnapshot

open Js Base64 EckIdentity AtRest

/-! ## Pieces -/

variable {maxBytes bytes : Nat} {s text : JsString}

/-- What is walked is cut off between code points, and fits. -/
theorem walked_spec : bytes ≤ maxBytes → walked maxBytes bytes s ≤ s.length ∧
    Cut (s.take (walked maxBytes bytes s)) (s.drop (walked maxBytes bytes s)) ∧
    bytes + utf8ByteLength (s.take (walked maxBytes bytes s)) ≤ maxBytes := by
  intro hbytes
  fun_induction walked maxBytes bytes s with
  | case1 => exact ⟨Nat.le_refl _, cut_nil _, hbytes⟩
  | case2 bytes c hover => exact ⟨Nat.zero_le _, cut_nil _, hbytes⟩
  | case3 bytes c hfits =>
    have hcut : Cut [c] [] := by
      intro h _ l hl
      cases hl
    exact ⟨Nat.le_refl _, hcut, Nat.le_of_not_lt hfits⟩
  | case4 bytes c d s hpair hover => exact ⟨Nat.zero_le _, cut_nil _, hbytes⟩
  | case5 bytes c d s hpair hfits ih =>
    obtain ⟨hlen, hcut, hsum⟩ := ih (Nat.le_of_not_lt hfits)
    rw [show 2 + walked maxBytes (bytes + 4) s = walked maxBytes (bytes + 4) s + 1 + 1 by omega, List.take_succ_cons, List.take_succ_cons,
      List.drop_succ_cons, List.drop_succ_cons, utf8ByteLength, if_pos hpair]
    refine ⟨?_, (cut_cons (List.cons_ne_nil _ _)).mpr (cut_low (Bool.and_eq_true_iff.mp hpair).2 (.inr hcut)), by omega⟩
    simp only [List.length_cons]
    omega
  | case6 bytes c d s hpair hover => exact ⟨Nat.zero_le _, cut_nil _, hbytes⟩
  | case7 bytes c d s hpair hfits ih =>
    obtain ⟨hlen, hcut, hsum⟩ := ih (Nat.le_of_not_lt hfits)
    generalize walked maxBytes (bytes + unitBytes c) (d :: s) = n at hlen hcut hsum ⊢
    rw [show 1 + n = n + 1 by omega, List.take_succ_cons, List.drop_succ_cons]
    refine ⟨by simp only [List.length_cons] at hlen ⊢; omega, ?_⟩
    cases n with
    | zero =>
      refine ⟨fun h hh l hl => ?_, Nat.le_of_not_lt hfits⟩
      have hc : c = h := Option.some.inj hh
      have hd : d = l := Option.some.inj hl
      rw [← hc, ← hd]
      exact Bool.eq_false_iff.mpr hpair
    | succ n =>
      refine ⟨(cut_cons (List.cons_ne_nil _ _)).mpr hcut, ?_⟩
      rw [List.take_succ_cons] at hsum ⊢
      rw [utf8ByteLength, if_neg hpair]
      omega

theorem unitBytes_le (c : CodeUnit) : unitBytes c ≤ 3 := by
  unfold unitBytes
  split_ifs <;> omega

/-- Four bytes take any code point. -/
theorem walked_pos (hmax : 4 ≤ maxBytes) (hs : s ≠ []) : walked maxBytes 0 s ≠ 0 := by
  cases s with
  | nil => exact absurd rfl hs
  | cons c s =>
    have hc := unitBytes_le c
    cases s with
    | nil =>
      rw [walked, if_neg (by omega)]
      decide
    | cons d s =>
      rw [walked]
      split_ifs <;> omega

theorem pieceEnd_spec (hmax : 4 ≤ maxBytes) (hs : s ≠ []) : 0 < pieceEnd maxBytes s ∧
    Cut (s.take (pieceEnd maxBytes s)) (s.drop (pieceEnd maxBytes s)) ∧ utf8ByteLength (s.take (pieceEnd maxBytes s)) ≤ maxBytes := by
  have hpos := walked_pos hmax hs
  obtain ⟨-, hcut, hsum⟩ := walked_spec (s := s) (Nat.zero_le maxBytes)
  rw [pieceEnd, if_neg hpos]
  exact ⟨Nat.pos_of_ne_zero hpos, hcut, by omega⟩

/-- No pair is in two pieces. -/
def Uncut (ps : List JsString) : Prop := ps.IsChain Cut

theorem flatten_pieces (maxBytes : Nat) (text : JsString) : (pieces maxBytes text).flatten = text := by
  fun_induction pieces maxBytes text with
  | case1 => rfl
  | case2 text hne ih => rw [List.flatten_cons, ih, List.take_append_drop]

theorem pieces_spec (text : JsString) (hmax : 4 ≤ maxBytes) : (∀ p ∈ pieces maxBytes text, p ≠ [] ∧ utf8ByteLength p ≤ maxBytes) ∧ Uncut (pieces maxBytes text) := by
  fun_induction pieces maxBytes text with
  | case1 => exact ⟨fun p hp => (List.not_mem_nil hp).elim, List.isChain_nil⟩
  | case2 text hne ih =>
    obtain ⟨hpos, hcut, hfits⟩ := pieceEnd_spec hmax hne
    refine ⟨?_, ?_⟩
    · intro p hp
      rcases List.mem_cons.mp hp with rfl | hp
      · refine ⟨fun hnil => ?_, hfits⟩
        rcases List.take_eq_nil_iff.mp hnil with h | h
        · omega
        · exact hne h
      · exact ih.1 p hp
    · refine List.isChain_cons.mpr ⟨fun q hq => ?_, ih.2⟩
      rw [pieces] at hq
      split at hq
      · cases hq
      · rw [← Option.some.inj hq]
        intro h hh l hl
        refine hcut h hh l ?_
        rw [List.head?_take] at hl
        split at hl
        · cases hl
        · exact hl

/-- **The pieces of a text**: together it, each within the limit, none ending within a pair. -/
theorem chunkByBytes_spec (text : JsString) (hmax : 4 ≤ maxBytes) : (chunkByBytes text maxBytes).flatten = text ∧
    (∀ p ∈ chunkByBytes text maxBytes, utf8ByteLength p ≤ maxBytes) ∧ Uncut (chunkByBytes text maxBytes) := by
  unfold chunkByBytes
  split_ifs with hfits
  · refine ⟨by simp, fun p hp => ?_, List.isChain_singleton _⟩
    rw [List.mem_singleton.mp hp]
    exact hfits
  · obtain ⟨hall, hcut⟩ := pieces_spec text hmax
    exact ⟨flatten_pieces maxBytes text, fun p hp => (hall p hp).2, hcut⟩

/-! ## Values -/

variable {other : Value → Option (List UInt8)}

theorem reviveMembers_names (other : Value → Option (List UInt8)) : ∀ ms : List (JsString × Raw), (reviveMembers other ms).map Prod.fst = ms.map Prod.fst
  | [] => rfl
  | (k, r) :: ms => by rw [reviveMembers, List.map_cons, List.map_cons, reviveMembers_names other ms]

theorem revive_tagged (b : List UInt8) : revive other (tagged b) = some (.bytes b) := by
  have hown : settle (own (reviveMembers other [(u8, Raw.str (bytesToBase64 b))])) = some [(u8, .str (bytesToBase64 b))] := rfl
  have hobj : reviveObj other [(u8, .str (bytesToBase64 b))] = (base64ToBytes (bytesToBase64 b)).map .bytes := rfl
  rw [tagged, revive, hown, Option.bind_some, hobj, base64ToBytes_bytesToBase64]
  rfl

/-- The names of an object are those of its text. -/
theorem names_revived {ms : List (JsString × Raw)} {fields : List (JsString × Value)}
    (h : reviveMembers other ms = fields.map fun f => (f.1, some f.2)) : fields.map Prod.fst = ms.map Prod.fst := by
  rw [← reviveMembers_names other ms, h, List.map_map]
  rfl

/-- An object whose text has no `__u8__` of its own is revived field by field. -/
theorem revive_obj {ms : List (JsString × Raw)} {w : Value} (hdistinct : (ms.map Prod.fst).Nodup) (hu8 : u8 ∉ ms.map Prod.fst) :
    revive other (.obj ms) = some w ↔ ∃ fields, w = .obj fields ∧ reviveMembers other ms = fields.map fun f => (f.1, some f.2) := by
  have hown : own (reviveMembers other ms) = reviveMembers other ms := own_of_nodup (by rwa [reviveMembers_names])
  rw [revive, hown, Option.bind_eq_some_iff]
  have hobj : ∀ fields, reviveMembers other ms = fields.map (fun f => (f.1, some f.2)) → reviveObj other fields = some (.obj fields) := by
    intro fields hf
    have hnone : look u8 fields = none := look_eq_none.mpr (by rwa [names_revived hf])
    rw [reviveObj, hnone]
  constructor
  · intro ⟨fields, hs, hw⟩
    have hf := settle_eq_some.mp hs
    rw [hobj fields hf] at hw
    exact ⟨fields, (Option.some.inj hw).symm, hf⟩
  · intro ⟨fields, hw, hf⟩
    refine ⟨fields, settle_eq_some.mpr hf, ?_⟩
    rw [hobj fields hf, hw]

/-- With one, it becomes bytes, or the reading throws. -/
theorem revive_u8 {ms : List (JsString × Raw)} {fields : List (JsString × Value)} (hdistinct : (ms.map Prod.fst).Nodup) (hu8 : u8 ∈ ms.map Prod.fst) :
    revive other (.obj ms) ≠ some (.obj fields) := by
  have hown : own (reviveMembers other ms) = reviveMembers other ms := own_of_nodup (by rwa [reviveMembers_names])
  rw [revive, hown]
  intro h
  obtain ⟨settled, hs, hw⟩ := Option.bind_eq_some_iff.mp h
  have hnames := names_revived (settle_eq_some.mp hs)
  have hlook : ∀ b : Option (List UInt8), b.map Value.bytes ≠ some (.obj fields) := by
    intro b hb
    obtain ⟨bytes, -, he⟩ := Option.map_eq_some_iff.mp hb
    cases he
  unfold reviveObj at hw
  split at hw
  · next hnone => exact look_eq_none.mp hnone (by rwa [hnames])
  · exact hlook _ hw
  · exact hlook _ hw

/-- The tree of what `JSON.stringify` writes. -/
def lockedTree (v : Value) : Option Raw := tree tagged (fun _ => none) v

mutual

/-- A value without a `bigint` is written, and read back exactly when nothing in it is called `__u8__`. -/
theorem revive_lockedTree (other : Value → Option (List UInt8)) : ∀ v : Value, v.Ok → v.NoBigint →
    ∃ r, lockedTree v = some r ∧ Written r ∧ (revive other r = some v ↔ v.Free u8)
  | .null, _, _ => ⟨.null, rfl, trivial, iff_of_true rfl trivial⟩
  | .bool b, _, _ => ⟨.bool b, rfl, trivial, iff_of_true rfl trivial⟩
  | .num literal, h, _ => ⟨.num literal, rfl, h, iff_of_true rfl trivial⟩
  | .str s, _, _ => ⟨.str s, rfl, trivial, iff_of_true rfl trivial⟩
  | .bigint n, _, h => h.elim
  | .bytes b, _, _ => ⟨tagged b, rfl, ⟨trivial, trivial⟩, iff_of_true (revive_tagged b) trivial⟩
  | .arr elems, h, hno => by
    obtain ⟨rs, hrs, hwritten, hread⟩ := revive_lockedElems other elems h hno
    refine ⟨.arr rs, by rw [lockedTree, tree, hrs, Option.map_some], hwritten, ?_⟩
    rw [revive, Value.Free, ← hread, Option.map_eq_some_iff]
    constructor
    · intro ⟨vs, hvs, he⟩
      rw [hvs, Value.arr.inj he]
    · exact fun he => ⟨elems, he, rfl⟩
  | .obj fields, h, hno => by
    obtain ⟨ms, hms, hwritten, hread⟩ := revive_lockedFields other fields h.2 hno
    have hnames := treeFields_names hms
    refine ⟨.obj ms, by rw [lockedTree, tree, hms, Option.map_some], hwritten, ?_⟩
    rw [Value.Free, ← hnames, ← hread]
    have hdistinct : (ms.map Prod.fst).Nodup := by
      rw [hnames]
      exact h.1
    by_cases hu8 : u8 ∈ ms.map Prod.fst
    · exact iff_of_false (revive_u8 hdistinct hu8) fun hfree => hfree.1 hu8
    · rw [revive_obj hdistinct hu8]
      constructor
      · intro ⟨fields', he, hf⟩
        rw [Value.obj.inj he]
        exact ⟨hu8, hf⟩
      · exact fun hf => ⟨fields, rfl, hf.2⟩

theorem revive_lockedElems (other : Value → Option (List UInt8)) : ∀ vs : List Value, OkElems vs → NoBigintElems vs →
    ∃ rs, treeElems tagged (fun _ => none) vs = some rs ∧ WrittenElems rs ∧ (reviveElems other rs = some vs ↔ FreeElems u8 vs)
  | [], _, _ => ⟨[], rfl, trivial, iff_of_true rfl trivial⟩
  | v :: vs, h, hno => by
    obtain ⟨r, hr, hw, hread⟩ := revive_lockedTree other v h.1 hno.1
    obtain ⟨rs, hrs, hws, hreads⟩ := revive_lockedElems other vs h.2 hno.2
    rw [lockedTree] at hr
    refine ⟨r :: rs, by simp only [treeElems, hr, hrs, Option.bind_eq_bind, Option.bind_some, Option.pure_def], ⟨hw, hws⟩, ?_⟩
    rw [FreeElems, ← hread, ← hreads, reviveElems]
    constructor
    · intro hv
      obtain ⟨a, ha, hv⟩ := Option.bind_eq_some_iff.mp hv
      obtain ⟨as, has, hv⟩ := Option.bind_eq_some_iff.mp hv
      obtain ⟨h1, h2⟩ := List.cons.inj (Option.some.inj hv)
      rw [ha, has, h1, h2]
      exact ⟨rfl, rfl⟩
    · intro ⟨h1, h2⟩
      rw [h1, h2]
      rfl

theorem revive_lockedFields (other : Value → Option (List UInt8)) : ∀ fields : List (JsString × Value), OkFields fields → NoBigintFields fields →
    ∃ ms, treeFields tagged (fun _ => none) fields = some ms ∧ WrittenMembers ms ∧
      (reviveMembers other ms = fields.map (fun f => (f.1, some f.2)) ↔ FreeFields u8 fields)
  | [], _, _ => ⟨[], rfl, trivial, iff_of_true rfl trivial⟩
  | (k, v) :: fields, h, hno => by
    obtain ⟨r, hr, hw, hread⟩ := revive_lockedTree other v h.1 hno.1
    obtain ⟨ms, hms, hws, hreads⟩ := revive_lockedFields other fields h.2 hno.2
    rw [lockedTree] at hr
    refine ⟨(k, r) :: ms, by simp only [treeFields, hr, hms, Option.bind_eq_bind, Option.bind_some, Option.pure_def], ⟨hw, hws⟩, ?_⟩
    rw [FreeFields, ← hread, ← hreads, reviveMembers, List.map_cons]
    constructor
    · intro he
      obtain ⟨h1, h2⟩ := List.cons.inj he
      exact ⟨(Prod.mk.inj h1).2, h2⟩
    · intro ⟨h1, h2⟩
      rw [h1, h2]

end

mutual

/-- `JSON.stringify` throws at a `bigint`. -/
theorem noBigint_of_tree : ∀ (v : Value) (r : Raw), lockedTree v = some r → v.NoBigint
  | .null, _, _ | .bool _, _, _ | .num _, _, _ | .str _, _, _ | .bytes _, _, _ => trivial
  | .bigint _, _, h => by cases h
  | .arr elems, r, h => by
    rw [lockedTree, tree] at h
    obtain ⟨rs, hrs, -⟩ := Option.map_eq_some_iff.mp h
    exact noBigint_of_elems elems rs hrs
  | .obj fields, r, h => by
    rw [lockedTree, tree] at h
    obtain ⟨ms, hms, -⟩ := Option.map_eq_some_iff.mp h
    exact noBigint_of_fields fields ms hms

theorem noBigint_of_elems : ∀ (vs : List Value) (rs : List Raw), treeElems tagged (fun _ => none) vs = some rs → NoBigintElems vs
  | [], _, _ => trivial
  | v :: vs, rs, h => by
    rw [treeElems] at h
    obtain ⟨r, hr, h⟩ := Option.bind_eq_some_iff.mp h
    obtain ⟨rs', hrs, -⟩ := Option.bind_eq_some_iff.mp h
    exact ⟨noBigint_of_tree v r hr, noBigint_of_elems vs rs' hrs⟩

theorem noBigint_of_fields : ∀ (fields : List (JsString × Value)) (ms : List (JsString × Raw)),
    treeFields tagged (fun _ => none) fields = some ms → NoBigintFields fields
  | [], _, _ => trivial
  | (k, v) :: fields, ms, h => by
    rw [treeFields] at h
    obtain ⟨r, hr, h⟩ := Option.bind_eq_some_iff.mp h
    obtain ⟨ms', hms, -⟩ := Option.bind_eq_some_iff.mp h
    exact ⟨noBigint_of_tree v r hr, noBigint_of_fields fields ms' hms⟩

end

/-! ## Signers -/

variable {signer : Signer} {account : JsString} {rows : Rows}

/-- A signer that is there: it encrypts any text of NIP-44's size and reads it back, writes base64, and
public keys are hex. -/
structure Signer.Faithful (signer : Signer) : Prop where
  reads : ∀ p, WellFormed p → p ≠ [] → utf8ByteLength p ≤ 65535 → ∃ c, signer.encrypt p = some c ∧ signer.decrypt c = some p
  base64 : ∀ p c, signer.encrypt p = some c → ∀ u ∈ c, u ≠ 46 ∧ u ≠ 58
  hex : ∀ sk pk, signer.getPublicKey sk = some pk → isHex64 pk = true

theorem wellFormed_of_uncut : ∀ {ps : List JsString}, Uncut ps → (∀ p ∈ ps, p ≠ []) → WellFormed ps.flatten → ∀ p ∈ ps, WellFormed p
  | [], _, _, _, p, hp => (List.not_mem_nil hp).elim
  | [q], _, _, hw, p, hp => by
    rw [List.mem_singleton.mp hp]
    simpa using hw
  | q :: r :: ps, hcut, hne, hw, p, hp => by
    obtain ⟨hq, hrest⟩ := List.isChain_cons_cons.mp hcut
    have hr := hne r (List.mem_cons_of_mem _ List.mem_cons_self)
    have hcut' : Cut q (r :: ps).flatten := by
      intro h hh l hl
      refine hq h hh l ?_
      rw [List.flatten_cons, List.head?_append_of_ne_nil _ hr] at hl
      exact hl
    rw [List.flatten_cons] at hw
    obtain ⟨hwq, hwrest⟩ := WellFormed.of_append hcut' hw
    cases List.mem_cons.mp hp with
    | inl he =>
      rw [he]
      exact hwq
    | inr hp => exact wellFormed_of_uncut hrest (fun p hp => hne p (List.mem_cons_of_mem _ hp)) hwrest p hp

theorem mapM_encrypt (h : signer.Faithful) : ∀ {ps : List JsString}, (∀ p ∈ ps, WellFormed p ∧ p ≠ [] ∧ utf8ByteLength p ≤ 65535) →
    ∃ cs, ps.mapM signer.encrypt = some cs ∧ cs.mapM signer.decrypt = some ps ∧ cs.length = ps.length ∧ ∀ c ∈ cs, ∀ u ∈ c, u ≠ 46
  | [], _ => ⟨[], rfl, rfl, rfl, fun c hc => (List.not_mem_nil hc).elim⟩
  | p :: ps, hp => by
    obtain ⟨hw, hne, hlen⟩ := hp p List.mem_cons_self
    obtain ⟨c, henc, hdec⟩ := h.reads p hw hne hlen
    obtain ⟨cs, hencs, hdecs, hlength, hdots⟩ := mapM_encrypt h fun q hq => hp q (List.mem_cons_of_mem _ hq)
    refine ⟨c :: cs, ?_, ?_, by rw [List.length_cons, List.length_cons, hlength], fun d hd => ?_⟩
    · simp only [List.mapM_cons, henc, hencs, Option.bind_eq_bind, Option.bind_some, Option.pure_def]
    · simp only [List.mapM_cons, hdec, hdecs, Option.bind_eq_bind, Option.bind_some, Option.pure_def]
    · cases List.mem_cons.mp hd with
      | inl he =>
        rw [he]
        exact fun u hu => (h.base64 p c henc u hu).1
      | inr hd => exact hdots d hd

theorem chunk_ne_nil {max : Nat} (hmax : 4 ≤ max) (hne : text ≠ []) : ∀ p ∈ chunkByBytes text max, p ≠ [] := by
  unfold chunkByBytes
  split_ifs with hfits
  · intro p hp
    rw [List.mem_singleton.mp hp]
    exact hne
  · exact fun p hp => ((pieces_spec text hmax).1 p hp).1

/-- What is stored of a text is opened as the text, in one piece or in several. -/
theorem opened_stored (h : signer.Faithful) (hw : WellFormed text) (hne : text ≠ []) : ∃ c, stored signer text = some c ∧ opened signer c = some text := by
  obtain ⟨hflat, hfits, huncut⟩ := chunkByBytes_spec text (show 4 ≤ lockChunkBytes by decide)
  have hnonempty := chunk_ne_nil (show 4 ≤ lockChunkBytes by decide) hne
  have hlimit : lockChunkBytes ≤ 65535 := by decide
  unfold stored
  split
  · next p hone =>
    rw [hone] at hflat hfits
    have hp : p = text := by simpa using hflat
    have hlen := hfits p List.mem_cons_self
    rw [hp] at hlen
    obtain ⟨c, henc, hdec⟩ := h.reads text hw hne (by omega)
    refine ⟨c, henc, ?_⟩
    have hplain : ¬startsWith lockChunkPrefix c = true := by
      intro hs
      have hcolon : (58 : CodeUnit) ∈ lockChunkPrefix := by decide
      exact (h.base64 text c henc 58 ((List.isPrefixOf_iff_prefix.mp hs).subset hcolon)).2 rfl
    rw [opened, if_neg hplain, hdec]
  · rw [← hflat] at hw
    have hwell := wellFormed_of_uncut huncut hnonempty hw
    obtain ⟨cs, henc, hdec, hlength, hdots⟩ := mapM_encrypt h fun p hp => ⟨hwell p hp, hnonempty p hp, Nat.le_trans (hfits p hp) hlimit⟩
    have hcs : cs ≠ [] := by
      intro hnil
      rw [hnil] at hlength
      have hnone : chunkByBytes text lockChunkBytes = [] := List.length_eq_zero_iff.mp hlength.symm
      rw [hnone] at hflat
      exact hne hflat.symm
    refine ⟨lockChunkPrefix ++ joinDot cs, by rw [henc, Option.map_some], ?_⟩
    rw [opened, if_pos (startsWith_append _ _), List.drop_left, splitDot_joinDot hcs hdots, hdec, Option.map_some, hflat]

/-! ## Keys -/

/-- A key of the account is no snapshot's, and no tag's. -/
def Listed (key : JsString) : Prop := key.head? ≠ some 95 ∨ key.take 9 ∈ [js "__chat_de", js "__chat_cl", js "__chat_le"]

theorem listed_prefix {x key : JsString} (hx : isHex64 x = true) (h : startsWith (identityPrefix x) key = true) : Listed key := by
  obtain ⟨t, rfl⟩ := List.isPrefixOf_iff_prefix.mp h
  obtain ⟨hlen, hall⟩ := Bool.and_eq_true_iff.mp hx
  cases x with
  | nil => exact absurd hlen (by decide)
  | cons c x =>
    refine .inl fun hc => ?_
    have hhex := List.all_eq_true.mp hall c List.mem_cons_self
    have hc' : c = 95 := Option.some.inj hc
    rw [hc'] at hhex
    exact absurd hhex (by decide)

theorem listed_chatKeysFor (h : signer.Faithful) (ha : isHex64 account = true) {keys : List JsString}
    (hkeys : chatKeysFor signer account rows = some keys) : keys.Nodup ∧ ∀ key ∈ keys, Listed key := by
  have hprefix : ∀ {x : JsString}, isHex64 x = true → ∀ key ∈ keysWithPrefix rows (identityPrefix x), Listed key :=
    fun hx key hkey => listed_prefix hx (List.mem_filter.mp hkey).2
  unfold chatKeysFor at hkeys
  split at hkeys
  · obtain ⟨chatPubkey, hpk, rfl⟩ := Option.map_eq_some_iff.mp hkeys
    refine ⟨nodup_eraseDups _, fun key hkey => ?_⟩
    rw [List.mem_eraseDups, List.mem_append, List.mem_append] at hkey
    rcases hkey with (hkey | hkey) | hkey
    · exact hprefix ha key hkey
    · exact hprefix (h.hex _ _ hpk) key hkey
    · refine .inr ?_
      simp only [List.mem_cons, List.not_mem_nil, or_false] at hkey
      rcases hkey with rfl | rfl | rfl | rfl
      · exact List.mem_cons_self
      · exact List.mem_cons_of_mem _ List.mem_cons_self
      · exact List.mem_cons_of_mem _ (List.mem_cons_of_mem _ List.mem_cons_self)
      · exact List.mem_cons_self
  · rw [← Option.some.inj hkeys]
    exact ⟨nodup_eraseDups _, fun key hkey => hprefix ha key (List.mem_eraseDups.mp hkey)⟩

theorem Listed.ne_lockedKey {key : JsString} (h : Listed key) : key ≠ lockedKey account := by
  intro he
  rw [he] at h
  rcases h with h | h
  · exact h rfl
  · have hlo : (lockedKey account).take 9 = js "__chat_lo" := rfl
    rw [hlo] at h
    revert h
    decide

theorem Listed.ne_u8 {key : JsString} (h : Listed key) : key ≠ u8 := by
  intro he
  rw [he] at h
  revert h
  unfold Listed
  decide

/-! ## Rows -/

theorem dump_names {keys : List JsString} : (dump rows keys).map Prod.fst = keys.filter fun key => (rows.get? key).isSome := by
  induction keys with
  | nil => rfl
  | cons key keys ih =>
    unfold dump at ih ⊢
    rw [List.filterMap_cons, List.filter_cons]
    cases rows.get? key with
    | none => exact ih
    | some v => exact congrArg (key :: ·) ih

theorem mem_dump {keys : List JsString} {f : JsString × Value} : f ∈ dump rows keys ↔ f.1 ∈ keys ∧ rows.get? f.1 = some f.2 := by
  unfold dump
  rw [List.mem_filterMap]
  constructor
  · intro ⟨key, hkey, hf⟩
    obtain ⟨v, hv, rfl⟩ := Option.map_eq_some_iff.mp hf
    exact ⟨hkey, hv⟩
  · intro ⟨hkey, hv⟩
    refine ⟨f.1, hkey, ?_⟩
    rw [hv]
    rfl

theorem get?_deletes {key : JsString} : ∀ (keys : List JsString) (rows : Rows),
    (keys.foldl JsMap.delete rows).get? key = if key ∈ keys then none else rows.get? key
  | [], rows => rfl
  | k :: keys, rows => by
    rw [List.foldl_cons, get?_deletes keys, JsMap.get?_delete]
    by_cases hk : key = k
    · simp [hk]
    · simp [hk]

theorem get?_sets {key : JsString} : ∀ {fields : List (JsString × Value)} (rows : Rows), (fields.map Prod.fst).Nodup →
    (fields.foldl (fun rows p => rows.set p.1 p.2) rows).get? key = (look key fields).or (rows.get? key)
  | fields, rows, hn => by
    have hset := JsMap.get?_foldl_set_if (fun _ => true) Prod.snd key fields rows hn
    simpa using hset

/-! ## A logout and a login -/

/-- What `chatKeysFor` and the dump hold of the account, or `none` where its chat key throws. -/
def held (signer : Signer) (account : JsString) (rows : Rows) : Option (List (JsString × Value)) :=
  (chatKeysFor signer account rows).map (dump rows)

theorem ok_dump (hok : ∀ key v, rows.get? key = some v → v.Ok) {keys : List JsString} (hn : keys.Nodup) : (Value.obj (dump rows keys)).Ok := by
  refine ⟨?_, okFields_iff.mpr fun f hf => hok f.1 f.2 (mem_dump.mp hf).2⟩
  rw [dump_names]
  exact hn.filter _

/-- A logout leaves the rows, or puts what opens to their text in place of those of the account. -/
theorem lock_cases (h : signer.Faithful) (hok : ∀ key v, rows.get? key = some v → v.Ok) (ha : isHex64 account = true) :
    (lockChatIdentityForLogout signer account rows = rows ∧
      ∀ fields, held signer account rows = some fields → fields = [] ∨ ¬NoBigintFields fields) ∨
    (∃ keys r c, chatKeysFor signer account rows = some keys ∧ lockedTree (.obj (dump rows keys)) = some r ∧ Written r ∧ opened signer c = some (rawText r) ∧
      lockChatIdentityForLogout signer account rows = keys.foldl JsMap.delete (rows.set (lockedKey account) (.str c))) := by
  unfold lockChatIdentityForLogout held
  cases hkeys : chatKeysFor signer account rows with
  | none => exact .inl ⟨rfl, fun fields hf => by cases hf⟩
  | some keys =>
    cases keys with
    | nil =>
      refine .inl ⟨rfl, fun fields hf => .inl ?_⟩
      rw [← Option.some.inj hf]
      rfl
    | cons key keys =>
      obtain ⟨hn, -⟩ := listed_chatKeysFor h ha hkeys
      by_cases hno : NoBigintFields (dump rows (key :: keys))
      · obtain ⟨r, hr, hwritten, -⟩ := revive_lockedTree (fun _ => none) (.obj (dump rows (key :: keys))) (ok_dump hok hn) hno
        obtain ⟨d, u, hu, -⟩ := Parse.head_rawText hwritten
        obtain ⟨c, hstored, hopened⟩ := opened_stored h (wellFormed_rawText r hwritten) (by rw [hu]; exact List.cons_ne_nil d u)
        refine .inr ⟨key :: keys, r, c, rfl, hr, hwritten, hopened, ?_⟩
        rw [lockedTree] at hr
        simp only [stringify, hr, Option.map_some, Option.bind_some, hstored]
      · refine .inl ⟨?_, fun fields hf => .inr ?_⟩
        · have hnone : tree tagged (fun _ => none) (.obj (dump rows (key :: keys))) = none := by
            by_contra hsome
            obtain ⟨r, hr⟩ := Option.ne_none_iff_exists'.mp hsome
            exact hno (noBigint_of_tree _ r hr)
          simp only [stringify, hnone, Option.map_none, Option.bind_none]
        · rw [← Option.some.inj hf]
          exact hno

/-- Every row is as it was, that of the snapshot apart. -/
def Restored (account : JsString) (rows rows' : Rows) : Prop := ∀ key, key ≠ lockedKey account → rows'.get? key = rows.get? key

/-- Of the rows that were put away, those come back that the text is read as. -/
theorem restored_locked (h : signer.Faithful) (hok : ∀ key v, rows.get? key = some v → v.Ok) (ha : isHex64 account = true) {keys : List JsString} {r : Raw}
    {c : JsString} (hkeys : chatKeysFor signer account rows = some keys) (hr : lockedTree (.obj (dump rows keys)) = some r) (hwritten : Written r)
    (hopened : opened signer c = some (rawText r)) :
    Restored account rows (unlockChatIdentityForLogin signer account other (keys.foldl JsMap.delete (rows.set (lockedKey account) (.str c)))) ↔
      FreeFields u8 (dump rows keys) := by
  obtain ⟨hn, hlisted⟩ := listed_chatKeysFor h ha hkeys
  have hlocked : lockedKey account ∉ keys := fun hk => (hlisted _ hk).ne_lockedKey rfl
  have hsub : ∀ key ∈ (dump rows keys).map Prod.fst, key ∈ keys := fun key hkey => by
    rw [dump_names] at hkey
    exact (List.mem_filter.mp hkey).1
  have hu8 : u8 ∉ (dump rows keys).map Prod.fst := fun hk => (hlisted _ (hsub _ hk)).ne_u8 rfl
  have hdumped := ok_dump hok hn
  have hno := noBigint_of_tree _ r hr
  obtain ⟨r', hr', -, hread⟩ := revive_lockedTree other (.obj (dump rows keys)) hdumped hno
  have hsame : r' = r := Option.some.inj (hr'.symm.trans hr)
  subst hsame
  have hrows : ∀ key, (keys.foldl JsMap.delete (rows.set (lockedKey account) (.str c))).get? key =
      if key ∈ keys then none else (rows.set (lockedKey account) (.str c)).get? key := fun key => get?_deletes keys _
  have hsnapshot : (keys.foldl JsMap.delete (rows.set (lockedKey account) (.str c))).get? (lockedKey account) = some (.str c) := by
    rw [hrows, if_neg hlocked, JsMap.get?_set, if_pos rfl]
  have hother : ∀ key, key ≠ lockedKey account → (keys.foldl JsMap.delete (rows.set (lockedKey account) (.str c))).get? key =
      if key ∈ keys then none else rows.get? key := by
    intro key hne
    have hset : (rows.set (lockedKey account) (.str c)).get? key = rows.get? key := by
      rw [JsMap.get?_set, if_neg fun he => hne he.symm]
    rw [hrows, hset]
  have hparse : (opened signer c).bind (parse other) = revive other r' := by
    rw [hopened, Option.bind_some, parse, parseJson_rawText hwritten, Option.bind_some]
  generalize keys.foldl JsMap.delete (rows.set (lockedKey account) (.str c)) = locked at hrows hsnapshot hother ⊢
  -- The text is that of an object with the names of the dump.
  obtain ⟨ms, hms, hform⟩ := Option.map_eq_some_iff.mp (show (treeFields tagged (fun _ => none) (dump rows keys)).map Raw.obj = some r' from hr)
  have hnames := treeFields_names hms
  have hdistinct : (ms.map Prod.fst).Nodup := by
    rw [hnames]
    exact hdumped.1
  have hfree : (Value.obj (dump rows keys)).Free u8 ↔ FreeFields u8 (dump rows keys) := ⟨And.right, fun hf => ⟨hu8, hf⟩⟩
  rw [← hfree, ← hread]
  cases hrev : revive other r' with
  | none =>
    refine iff_of_false (fun hall => ?_) fun he => by cases he
    have hunlock : unlockChatIdentityForLogin signer account other locked = locked := by
      simp only [unlockChatIdentityForLogin, hsnapshot, hparse, hrev, Option.bind_none]
    rw [hunlock] at hall
    have hnot : ¬FreeFields u8 (dump rows keys) := by
      rw [← hfree, ← hread, hrev]
      intro he
      cases he
    rw [freeFields_iff] at hnot
    push Not at hnot
    obtain ⟨f, hf, -⟩ := hnot
    obtain ⟨hkey, hget⟩ := mem_dump.mp hf
    have hback := hall f.1 (hlisted _ hkey).ne_lockedKey
    rw [hother f.1 (hlisted _ hkey).ne_lockedKey, if_pos hkey, hget] at hback
    cases hback
  | some w =>
    rw [← hform] at hrev
    obtain ⟨fields, hw, hfields⟩ := (revive_obj hdistinct (by rw [hnames]; exact hu8)).mp hrev
    have hkeysame : fields.map Prod.fst = (dump rows keys).map Prod.fst := (names_revived hfields).trans hnames
    have hfn : (fields.map Prod.fst).Nodup := by
      rw [hkeysame]
      exact hdumped.1
    have hunlock : unlockChatIdentityForLogin signer account other locked =
        (fields.foldl (fun rows p => rows.set p.1 p.2) locked).delete (lockedKey account) := by
      have hparse' : (opened signer c).bind (parse other) = some (.obj fields) := by
        rw [hparse, ← hform, hrev, hw]
      simp only [unlockChatIdentityForLogin, hsnapshot, hparse', Option.bind_some, entries]
    have hget : ∀ key, key ≠ lockedKey account → (unlockChatIdentityForLogin signer account other locked).get? key =
        (look key fields).or (if key ∈ keys then none else rows.get? key) := by
      intro key hne
      rw [hunlock, JsMap.get?_delete, if_neg hne, get?_sets _ hfn, hother key hne]
    rw [hw, Option.some.injEq, Value.obj.injEq]
    constructor
    · intro hall
      -- Field by field: the names are the same, and so are the values.
      refine List.ext_getElem (by simpa using congrArg List.length hkeysame) fun i hi hi' => ?_
      have hname : (fields[i]).1 = ((dump rows keys)[i]).1 := by
        have := congrArg (fun l => l[i]?) hkeysame
        simpa [List.getElem?_eq_getElem hi, List.getElem?_eq_getElem hi'] using this
      obtain ⟨hkey, hval⟩ := mem_dump.mp (List.getElem_mem hi')
      have hback := hall _ (hlisted _ hkey).ne_lockedKey
      have hlook : look (fields[i]).1 fields = some (fields[i]).2 := (look_eq_some hfn).mpr (List.getElem_mem hi)
      rw [hget _ (hlisted _ hkey).ne_lockedKey, ← hname, hlook, Option.some_or, hname, hval] at hback
      exact Prod.ext hname (Option.some.inj hback)
    · intro he key hne
      rw [hget key hne, he]
      by_cases hkey : key ∈ keys
      · rw [if_pos hkey, Option.or_none]
        cases hrow : rows.get? key with
        | none =>
          refine look_eq_none.mpr fun hm => ?_
          rw [dump_names] at hm
          have hsome := (List.mem_filter.mp hm).2
          rw [hrow] at hsome
          cases hsome
        | some v => exact (look_eq_some hdumped.1).mpr (mem_dump.mpr ⟨hkey, hrow⟩)
      · rw [if_neg hkey, look_eq_none.mpr fun hm => hkey (hsub _ hm), Option.none_or]

/-- **The rows come back** from a logout and a login unless a row can be written and has an own property `__u8__`. -/
theorem restored_iff (other : Value → Option (List UInt8)) (h : signer.Faithful) (hok : ∀ key v, rows.get? key = some v → v.Ok) (ha : isHex64 account = true)
    (hnew : rows.get? (lockedKey account) = none) :
    Restored account rows (unlockChatIdentityForLogin signer account other (lockChatIdentityForLogout signer account rows)) ↔
      ∀ fields, held signer account rows = some fields → (∀ f ∈ fields, f.2.NoBigint) → ∀ f ∈ fields, f.2.Free u8 := by
  rcases lock_cases h hok ha with ⟨hlock, hall⟩ | ⟨keys, r, c, hkeys, hr, hwritten, hopened, hlock⟩
  · have hunlock : unlockChatIdentityForLogin signer account other rows = rows := by
      simp only [unlockChatIdentityForLogin, hnew]
    rw [hlock, hunlock]
    refine iff_of_true (fun key _ => rfl) fun fields hf hno f hmem => ?_
    rcases hall fields hf with hnil | hbig
    · rw [hnil] at hmem
      exact (List.not_mem_nil hmem).elim
    · exact absurd (noBigintFields_iff.mpr hno) hbig
  · have hheld : held signer account rows = some (dump rows keys) := by rw [held, hkeys, Option.map_some]
    have hno : NoBigintFields (dump rows keys) := noBigint_of_tree _ r hr
    rw [hlock, restored_locked h hok ha hkeys hr hwritten hopened, freeFields_iff]
    constructor
    · intro hfree fields hf _
      rw [← Option.some.inj (hheld.symm.trans hf)]
      exact hfree
    · exact fun hall => hall _ hheld (noBigintFields_iff.mp hno)

/-! ## Both stores -/

/-- Nothing stored is changed: of a value of the coordinator, of the rows of an account over a logout and a login, and of the text that is cut. -/
structure Survives (tags : List (JsString × Raw) → Option Value) (other : Value → Option (List UInt8)) (signer : Signer) (account : JsString) (v : Value)
    (rows : Rows) : Prop where
  decoded : (ValueCodec.encodeValue v).bind (ValueCodec.decodeValue tags) = some v
  restored : Restored account rows (unlockChatIdentityForLogin signer account other (lockChatIdentityForLogout signer account rows))
  joined : ∀ text, (chunkByBytes text lockChunkBytes).flatten = text
  fits : ∀ text, ∀ p ∈ chunkByBytes text lockChunkBytes, utf8ByteLength p ≤ lockChunkBytes
  uncut : ∀ text, Uncut (chunkByBytes text lockChunkBytes)

/-- **What is stored comes back byte for byte** exactly when no object of the coordinator's value has an own `__proto__`, and no row
of a snapshot that is written has an object with an own `__u8__`. -/
theorem survives_iff {tags : List (JsString × Raw) → Option Value} {v : Value} (h : signer.Faithful) (hv : v.Ok) (hfree : v.Free ValueCodec.marmot)
    (hok : ∀ key v, rows.get? key = some v → v.Ok) (ha : isHex64 account = true) (hnew : rows.get? (lockedKey account) = none) :
    Survives tags other signer account v rows ↔ v.Free ValueCodec.proto ∧
      ∀ fields, held signer account rows = some fields → (∀ f ∈ fields, f.2.NoBigint) → ∀ f ∈ fields, f.2.Free u8 := by
  rw [← ValueCodec.decodeValue_encodeValue tags hv hfree, ← restored_iff other h hok ha hnew]
  have hchunks := fun text => chunkByBytes_spec text (show 4 ≤ lockChunkBytes by decide)
  constructor
  · intro hs
    exact ⟨hs.decoded, hs.restored⟩
  · intro ⟨hdecoded, hrestored⟩
    exact ⟨hdecoded, hrestored, fun text => (hchunks text).1, fun text => (hchunks text).2.1, fun text => (hchunks text).2.2⟩

/-- The signer that writes texts in hex. -/
def hexSigner : Signer where
  getPublicKey _ := some (List.replicate 64 98)
  encrypt p := some (selfEncrypt hexCrypto () p)
  decrypt c := selfDecrypt hexCrypto () c

theorem hexSigner_faithful : hexSigner.Faithful where
  reads p hw _ _ := ⟨_, rfl, selfDecrypt_selfEncrypt hexCrypto_roundTrips hw⟩
  base64 p c hc u hu := by
    rw [← Option.some.inj hc] at hu
    have hhex := List.all_eq_true.mp (isLowerHex_bytesToHex (utf8ToBytes p).data.toList) u hu
    constructor
    · intro he
      rw [he] at hhex
      exact absurd hhex (by decide)
    · intro he
      rw [he] at hhex
      exact absurd hhex (by decide)
  hex sk pk hpk := by
    rw [← Option.some.inj hpk]
    decide

def hexAccount : JsString := List.replicate 64 97

def groupKey : JsString := identityPrefix hexAccount ++ js "group-state\x1fg1"

/-- The rows of an account with one group. -/
def oneGroup (state : Value) : Rows := JsMap.empty.set groupKey state

theorem get?_oneGroup {state v : Value} {key : JsString} (h : (oneGroup state).get? key = some v) : v = state := by
  rw [oneGroup, JsMap.get?_set] at h
  split_ifs at h
  · exact (Option.some.inj h).symm
  · cases h

theorem held_oneGroup (state : Value) : held hexSigner hexAccount (oneGroup state) = some [(groupKey, state)] := rfl

/-- What marmot keeps of an epoch. -/
def epochState : Value := .obj [(js "epoch", .bigint 7), (js "secret", .bytes [1, 2, 255])]

theorem survives_iff_bytes : Survives (fun _ => none) (fun _ => none) hexSigner hexAccount epochState (oneGroup (.bytes [1, 2, 255])) := by
  have hv : epochState.Ok := ⟨by decide, trivial, trivial, trivial⟩
  have hfree : epochState.Free ValueCodec.marmot := ⟨by decide, trivial, trivial, trivial⟩
  have hproto : epochState.Free ValueCodec.proto := ⟨by decide, trivial, trivial, trivial⟩
  have hok : ∀ key v, (oneGroup (.bytes [1, 2, 255])).get? key = some v → v.Ok := by
    intro key v hkey
    rw [get?_oneGroup hkey]
    trivial
  refine (survives_iff hexSigner_faithful hv hfree hok (by decide) rfl).mpr ⟨hproto, fun fields hf _ f hmem => ?_⟩
  rw [held_oneGroup] at hf
  rw [← Option.some.inj hf] at hmem
  rw [List.mem_singleton.mp hmem]
  trivial

/-- A field called `__proto__` is lost in the coordinator, and a group whose state has one called `__u8__` does not come back in the app. -/
theorem names_lost : ¬(∀ v : Value, v.Ok → v.Free ValueCodec.marmot → (ValueCodec.encodeValue v).bind (ValueCodec.decodeValue fun _ => none) = some v) ∧
    ¬(∀ rows : Rows, (∀ key v, rows.get? key = some v → v.Ok) → rows.get? (lockedKey hexAccount) = none →
      Restored hexAccount rows (unlockChatIdentityForLogin hexSigner hexAccount (fun _ => none) (lockChatIdentityForLogout hexSigner hexAccount rows))) := by
  constructor
  · intro hall
    have hok : (Value.obj [(ValueCodec.proto, .null)]).Ok := ⟨by decide, trivial, trivial⟩
    have huntagged : (Value.obj [(ValueCodec.proto, .null)]).Free ValueCodec.marmot := ⟨by decide, trivial, trivial⟩
    have hfree := (ValueCodec.decodeValue_encodeValue (fun _ => none) hok huntagged).mp (hall _ hok huntagged)
    exact hfree.1 List.mem_cons_self
  · intro hall
    have hok : ∀ key v, (oneGroup (.obj [(u8, .str (js "AQI="))])).get? key = some v → v.Ok := by
      intro key v hv
      rw [get?_oneGroup hv]
      exact ⟨by decide, trivial, trivial⟩
    have hfree := (restored_iff _ hexSigner_faithful hok (by decide) rfl).mp (hall _ hok rfl) _ (held_oneGroup _)
    have hkept : ∀ f ∈ [(groupKey, Value.obj [(u8, .str (js "AQI="))])], f.2.NoBigint := by
      intro f hf
      rw [List.mem_singleton.mp hf]
      exact ⟨trivial, trivial⟩
    exact (hfree hkept _ List.mem_cons_self).1 List.mem_cons_self

end Nostrautica.ChatSnapshot
