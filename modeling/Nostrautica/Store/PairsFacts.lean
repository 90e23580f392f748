/-
The shared pair row refines two independent directed caches: what a reader
sees of one direction moves, call by call, as that direction's own cache does
(`view_step`), so it is always the direction's current write.
-/
import Nostrautica.Store.Pairs

namespace Nostrautica.Pairs

open Js Sql

variable {ν : Type} {t : Table ν} {c f g : JsString} {w v : DirectedScore ν} {row : PairRow ν} {k : PairKey}

/-! ## Keys -/

theorem pairKey_comm (h : f ≠ g) : pairKey c f g = pairKey c g f := by
  unfold pairKey
  rcases lt_or_gt_of_ne h with h | h
  · rw [if_pos h, if_neg (lt_asymm h)]
  · rw [if_neg (lt_asymm h), if_pos h]

/-- A pair's key is that of its two directions, and of no others. -/
theorem pairKey_eq {c' f' g' : JsString} (h : f ≠ g) : pairKey c' f' g' = pairKey c f g ↔
    c' = c ∧ (f' = f ∧ g' = g ∨ f' = g ∧ g' = f) := by
  constructor
  · intro he
    unfold pairKey at he
    split at he <;> split at he <;> simp only [PairKey.mk.injEq] at he <;> tauto
  · rintro ⟨rfl, ⟨rfl, rfl⟩ | ⟨rfl, rfl⟩⟩
    · rfl
    · exact pairKey_comm (Ne.symm h)

/-- Only the smaller pubkey is the key's `a`. -/
theorem eq_a_comm (h : f ≠ g) : g = (pairKey c f g).a ↔ ¬ f = (pairKey c f g).a := by
  unfold pairKey
  split
  · simp [h.symm]
  · simp [h]

/-! ## One direction of a row -/

/-- What a row says of a direction. -/
structure View (ν : Type) where
  hash : JsString
  score : ν
  similarity : ν
  complementarity : ν
  reasoning : JsString
  icebreakers : Option (List JsString)

/-- The base columns, or the `*_b` columns over them, where they are scored. -/
def rowView (fromIsX : Bool) (row : PairRow ν) : Option (View ν) :=
  let reasoning := if fromIsX then some row.reasoning else row.reasoning_b
  if isScored reasoning then
    some
      { hash := row.inputs_hash
        score := if fromIsX then row.score else row.score_b.getD row.score
        similarity := if fromIsX then row.similarity else row.similarity_b.getD row.similarity
        complementarity := if fromIsX then row.complementarity else row.complementarity_b.getD row.complementarity
        reasoning := reasoning.getD []
        icebreakers := readIcebreakers (if fromIsX then row.icebreakers_json else row.icebreakers_b_json) }
  else none

/-- What the table says of a direction. -/
def view (t : Table ν) (c f g : JsString) : Option (View ν) :=
  (t.get? (pairKey c f g)).bind (rowView (f = (pairKey c f g).a))

def viewOf (w : DirectedScore ν) : View ν :=
  { hash := w.inputsHash
    score := w.score
    similarity := w.similarity
    complementarity := w.complementarity
    reasoning := w.reasoning
    icebreakers := w.icebreakers.filter (· ≠ []) }

theorem strings_map (l : List JsString) : strings (l.map .str) = some l := by
  induction l with
  | nil => rfl
  | cons s l ih => simp [strings, ih]

theorem readIcebreakers_icebreakersJson (l : Option (List JsString)) :
    readIcebreakers (icebreakersJson l) = l.filter (· ≠ []) := by
  match l with
  | none | some [] => rfl
  | some (s :: rest) => simp [icebreakersJson, readIcebreakers, strings, strings_map, Option.filter]

/-- The `*_b` scores are written with their reasoning. -/
def Filled (row : PairRow ν) : Prop :=
  row.reasoning_b.isSome → row.score_b.isSome ∧ row.similarity_b.isSome ∧ row.complementarity_b.isSome

theorem hash_of_rowView {x : Bool} {u : View ν} (h : rowView x row = some u) : u.hash = row.inputs_hash := by
  cases x <;> simp only [rowView, Bool.false_eq_true, if_false, if_true] at h <;> split at h
  all_goals
    cases h
    try rfl

/-- A row for other inputs shows nothing for these. -/
theorem bind_rowView_filter {x : Bool} {h : JsString} {row? : Option (PairRow ν)} :
    (row?.filter (·.inputs_hash = h)).bind (rowView x) = (row?.bind (rowView x)).filter (·.hash = h) := by
  cases row? with
  | none => rfl
  | some row =>
    cases hv : rowView x row with
    | none => by_cases hh : row.inputs_hash = h <;> simp [Option.filter, hh, hv]
    | some u =>
      have hu := hash_of_rowView hv
      by_cases hh : row.inputs_hash = h <;> simp [Option.filter, hu, hh, hv]

/-- The row after a write, from the one before it for the same inputs. -/
def putRow (x : Bool) (w : DirectedScore ν) (row? : Option (PairRow ν)) : PairRow ν :=
  (if x then putBase w else putReverse w) row?

/-- A write shows in its own direction. -/
theorem rowView_putRow {x : Bool} {row? : Option (PairRow ν)} (h : w.reasoning ≠ []) :
    rowView x (putRow x w row?) = some (viewOf w) := by
  have hs : isScored (some w.reasoning) = true := by simp [isScored, h]
  cases x <;> cases row? <;>
    simp [rowView, putRow, putBase, putReverse, hs, viewOf, readIcebreakers_icebreakersJson]

/-- A write leaves the other direction as it was. -/
theorem rowView_putRow_not {x : Bool} {row? : Option (PairRow ν)} (hf : ∀ row ∈ row?, Filled row)
    (hh : ∀ row ∈ row?, row.inputs_hash = w.inputsHash) :
    rowView x (putRow (!x) w row?) = row?.bind (rowView x) := by
  cases row? with
  | none => cases x <;> rfl
  | some row =>
    have hr := hh row rfl
    have hfr := hf row rfl
    cases x with
    | true => simp [rowView, putRow, putReverse, hr]
    | false =>
      unfold Filled at hfr
      simp only [rowView, putRow, putBase, hr, Bool.not_false, if_true, Bool.false_eq_true, if_false, Option.bind_some]
      cases hb : row.reasoning_b with
      | none => rfl
      | some r =>
        obtain ⟨h1, h2, h3⟩ := hfr (by rw [hb]; rfl)
        obtain ⟨a, ha⟩ := Option.isSome_iff_exists.mp h1
        obtain ⟨b, hb⟩ := Option.isSome_iff_exists.mp h2
        obtain ⟨d, hd⟩ := Option.isSome_iff_exists.mp h3
        simp [ha, hb, hd]

theorem filled_putRow {x : Bool} {row? : Option (PairRow ν)} (hf : ∀ row ∈ row?, Filled row) : Filled (putRow x w row?) := by
  cases row? with
  | none => cases x <;> simp [Filled, putRow, putBase, putReverse]
  | some row =>
    have hfr := hf row rfl
    unfold Filled at hfr ⊢
    cases x
    · simp [putRow, putReverse]
    · simpa [putRow, putBase] using hfr

/-! ## The table after a write -/

/-- The row a write starts from: the pair's, if it was scored for the same inputs. -/
def baseRow (t : Table ν) (w : DirectedScore ν) : Option (PairRow ν) :=
  (t.get? (pairKey w.coordinate w.fromPk w.toPk)).filter (·.inputs_hash = w.inputsHash)

theorem get?_dropStale {h : JsString} : (dropStale t k h).get? k = (t.get? k).filter (·.inputs_hash = h) := by
  unfold dropStale
  cases hr : t.get? k with
  | none => simp [hr]
  | some row =>
    by_cases hh : row.inputs_hash = h
    · simp [hh, hr, Option.filter]
    · simp [hh, Keyed.get?_delete, Option.filter]

theorem get?_dropStale_of_ne {h : JsString} {j : PairKey} (hj : j ≠ k) : (dropStale t k h).get? j = t.get? j := by
  unfold dropStale
  split
  · rw [Keyed.get?_delete, if_neg (by simpa using hj)]
  · rfl

theorem get?_putPairDirection : (putPairDirection t w).get? k =
    if pairKey w.coordinate w.fromPk w.toPk = k then
      some (putRow (w.fromPk = (pairKey w.coordinate w.fromPk w.toPk).a) w (baseRow t w))
    else t.get? k := by
  unfold putPairDirection
  simp only
  rw [Keyed.get?_upsert]
  split
  next hk =>
    rw [get?_dropStale, putRow, baseRow]
    simp only [decide_eq_true_eq]
  next hk => rw [get?_dropStale_of_ne fun h => hk h.symm]

theorem mem_baseRow (h : row ∈ baseRow t w) :
    t.get? (pairKey w.coordinate w.fromPk w.toPk) = some row ∧ row.inputs_hash = w.inputsHash := by
  simpa [baseRow, Option.mem_def, Option.filter_eq_some_iff] using h

/-- Rows have their scores, and their keys are in order. -/
structure Sound (t : Table ν) : Prop where
  filled : ∀ k row, t.get? k = some row → Filled row
  ordered : ∀ k row, t.get? k = some row → k.a ≤ k.b

theorem Sound.empty : Sound (Keyed.empty : Table ν) := ⟨fun _ _ h => by simp at h, fun _ _ h => by simp at h⟩

theorem pairKey_ordered : (pairKey c f g).a ≤ (pairKey c f g).b := by
  unfold pairKey
  split
  next h => exact le_of_lt h
  next h => exact le_of_not_gt h

theorem Sound.putPairDirection (h : Sound t) (w : DirectedScore ν) : Sound (putPairDirection t w) := by
  constructor
  all_goals
    intro k row hk
    rw [get?_putPairDirection] at hk
    split at hk
  · cases hk
    exact filled_putRow fun row hr => h.filled _ _ (mem_baseRow hr).1
  · exact h.filled k row hk
  next heq => exact heq ▸ pairKey_ordered
  next => exact h.ordered k row hk

theorem Sound.delete (h : Sound t) (p : PairKey → Bool) : Sound (t.delete p) := by
  have hold : ∀ k row, (t.delete p).get? k = some row → t.get? k = some row := by
    intro k row hk
    rw [Keyed.get?_delete] at hk
    split at hk
    · cases hk
    · exact hk
  exact ⟨fun k row hk => h.filled k row (hold k row hk), fun k row hk => h.ordered k row (hold k row hk)⟩

/-- What a direction shows after a write. -/
theorem view_putPairDirection (hf : Sound t) (hw : w.reasoning ≠ []) (hne : f ≠ g) :
    view (putPairDirection t w) c f g =
      if w.coordinate = c ∧ w.fromPk = f ∧ w.toPk = g then some (viewOf w)
      else if w.coordinate = c ∧ w.fromPk = g ∧ w.toPk = f then (view t c f g).filter (·.hash = w.inputsHash)
      else view t c f g := by
  unfold view
  rw [get?_putPairDirection]
  by_cases hk : pairKey w.coordinate w.fromPk w.toPk = pairKey c f g
  · rw [if_pos hk, Option.bind_some]
    obtain ⟨hc, ⟨hfrom, hto⟩ | ⟨hfrom, hto⟩⟩ := (pairKey_eq hne).mp hk
    · rw [if_pos ⟨hc, hfrom, hto⟩, hk, hfrom]
      exact rowView_putRow hw
    · rw [if_neg fun h => hne (h.2.1.symm.trans hfrom), if_pos ⟨hc, hfrom, hto⟩, hk, hfrom]
      have hx : decide (g = (pairKey c f g).a) = !decide (f = (pairKey c f g).a) := by
        rw [← decide_not]
        exact decide_eq_decide.mpr (eq_a_comm hne)
      rw [hx, rowView_putRow_not (fun row hr => hf.filled _ _ (mem_baseRow hr).1) fun row hr => (mem_baseRow hr).2, baseRow, hk]
      exact bind_rowView_filter
  · rw [if_neg hk]
    have hn := fun h => hk ((pairKey_eq hne).mpr h)
    rw [if_neg fun h => hn ⟨h.1, .inl h.2⟩, if_neg fun h => hn ⟨h.1, .inr h.2⟩]

theorem view_delete {p : PairKey → Bool} :
    view (t.delete p) c f g = if p (pairKey c f g) then none else view t c f g := by
  unfold view
  rw [Keyed.get?_delete]
  split <;> rfl

/-! ## Runs -/

/-- The table after one event. -/
def step (t : Table ν) : Event ν → Table ν
  | .put w => putPairDirection t w
  | .clearInvolving coordinate pubkey => clearPairsInvolving t coordinate pubkey
  | .clear coordinate => clearPairs t coordinate

theorem after_eq (calls : List (Call ν)) : after calls = (calls.flatMap events).foldl step Keyed.empty := by
  rw [List.foldl_flatMap]
  unfold after
  congr 1
  funext t call
  cases call <;> rfl

theorem Sound.step (h : Sound t) (e : Event ν) : Sound (step t e) := by
  cases e with
  | put w => exact h.putPairDirection w
  | clearInvolving coordinate pubkey =>
    unfold Pairs.step clearPairsInvolving
    exact h.delete _
  | clear coordinate =>
    unfold Pairs.step clearPairs
    exact h.delete _

/-- What neither sets nor drops leaves the value. -/
theorem next_of_not {cur : Option (DirectedScore ν)} {e : Event ν} (hw : writesTo c f g e = none)
    (hv : ∀ u, voids c f g u e = false) : Latest.next (writesTo c f g) (voids c f g) cur e = cur := by
  cases cur <;> simp [Latest.next, hw, hv, Option.filter]

/-- What drops every value leaves none. -/
theorem next_of_clear {cur : Option (DirectedScore ν)} {e : Event ν} (hw : writesTo c f g e = none)
    (hv : ∀ u, voids c f g u e = true) : Latest.next (writesTo c f g) (voids c f g) cur e = none := by
  cases cur <;> simp [Latest.next, hw, hv, Option.filter]

/-- A deletion by key drops what the direction shows, where the key is deleted. -/
theorem view_clear {p : PairKey → Bool} {e : Event ν} {cur : Option (DirectedScore ν)} {b : Bool}
    (hp : p (pairKey c f g) = b) (hw : writesTo c f g e = none) (hv : ∀ u, voids c f g u e = b)
    (hcur : view t c f g = cur.map viewOf) :
    view (t.delete p) c f g = (Latest.next (writesTo c f g) (voids c f g) cur e).map viewOf := by
  rw [view_delete, hp]
  cases b with
  | true =>
    rw [next_of_clear hw hv]
    rfl
  | false => rw [next_of_not hw hv, if_neg (by decide), hcur]

/-- **The row moves as the direction's own cache does.** -/
theorem view_step {e : Event ν} {cur : Option (DirectedScore ν)} (hf : Sound t) (he : e.reasoned) (hne : f ≠ g)
    (hcur : view t c f g = cur.map viewOf) :
    view (step t e) c f g = (Latest.next (writesTo c f g) (voids c f g) cur e).map viewOf := by
  cases e with
  | put w =>
    show view (putPairDirection t w) c f g = _
    rw [view_putPairDirection hf he hne, hcur]
    by_cases hsame : w.coordinate = c ∧ w.fromPk = f ∧ w.toPk = g
    · rw [if_pos hsame, Latest.next, writesTo, if_pos hsame]
      rfl
    · have hw : writesTo c f g (.put w) = none := if_neg hsame
      rw [if_neg hsame]
      split
      next hrev =>
        rw [Latest.next, hw, Option.none_or]
        cases cur with
        | none => rfl
        | some u =>
          by_cases hh : w.inputsHash = u.inputsHash
          · simp [Option.filter, viewOf, voids, hrev, hh]
          · simp [Option.filter, viewOf, voids, hrev, hh, Ne.symm hh]
      next hrev =>
        rw [next_of_not hw]
        exact fun u => decide_eq_false fun h => hrev ⟨h.1, h.2.1, h.2.2.1⟩
  | clearInvolving coordinate pubkey =>
    refine view_clear (b := decide (coordinate = c ∧ (pubkey = f ∨ pubkey = g))) ?_ rfl (fun _ => rfl) hcur
    unfold pairKey
    split <;> grind
  | clear coordinate =>
    refine view_clear (b := decide (coordinate = c)) ?_ rfl (fun _ => rfl) hcur
    unfold pairKey
    split <;> grind

/-- A direction shows its latest write that nothing voided. -/
theorem view_after {calls : List (Call ν)} (hr : ∀ e ∈ calls.flatMap events, e.reasoned) (hne : f ≠ g) :
    Sound (after calls) ∧ view (after calls) c f g =
      (Latest.latest (writesTo c f g) (voids c f g) (calls.flatMap events)).map viewOf := by
  rw [after_eq]
  exact Latest.eq_latest (fun t => view t c f g) Sound.empty rfl (fun _ e h _ => h.step e)
    (fun _ _ _ h he hcur => view_step h he hne hcur) _ hr

/-! ## The two readers -/

theorem scoredDirection_eq : scoredDirection t c f g = (view t c f g).map fun u =>
    { inputs_hash := u.hash, scored := true, score := u.score, reasoning := some u.reasoning } := by
  unfold scoredDirection getPairDirection view
  cases t.get? (pairKey c f g) with
  | none => rfl
  | some row =>
    simp only [Option.map_some, Option.bind_some, rowView, decide_eq_true_eq]
    generalize (if f = (pairKey c f g).a then some row.reasoning else row.reasoning_b) = reasoning
    cases reasoning with
    | none => rfl
    | some r => by_cases hs : isScored (some r) = true <;> simp [Option.filter, hs]

/-- A direction as an entry of `pairsFor`. -/
def matchOfView (other : JsString) (u : View ν) : Match ν :=
  { other
    score := u.score
    similarity := u.similarity
    complementarity := u.complementarity
    reasoning := u.reasoning
    icebreakers := u.icebreakers }

theorem matchOf_eq : matchOf f k row =
    (rowView (k.a = f) row).map (matchOfView (if k.a = f then k.b else k.a)) := by
  unfold matchOf rowView
  simp only [decide_eq_true_eq]
  generalize (if k.a = f then some row.reasoning else row.reasoning_b) = reasoning
  by_cases hs : isScored reasoning = true
  · rw [if_pos hs, if_pos hs]
    rfl
  · rw [if_neg hs, if_neg hs]
    rfl

/-- The row `pairsFor` reads for one other attendee. -/
theorem key_of_entry (h : k.a ≤ k.b) (hne : f ≠ g)
    (hk : (k.coordinate = c && (k.a = f || k.b = f)) = true) (hg : (if k.a = f then k.b else k.a) = g) :
    k = pairKey c f g := by
  obtain ⟨kc, a, b⟩ := k
  simp only [Bool.and_eq_true, decide_eq_true_eq, Bool.or_eq_true] at hk hg h
  obtain ⟨rfl, hab⟩ := hk
  unfold pairKey
  split at hg
  next ha =>
    subst ha hg
    rw [if_pos (lt_of_le_of_ne h hne)]
  next ha =>
    obtain rfl := hab.resolve_left ha
    subst hg
    rw [if_neg (not_lt_of_ge h)]

/-- The entry for `g` that a row gives `f`. -/
def entryOfRow (c f g : JsString) (k : PairKey) (row : PairRow ν) : Option (Match ν) :=
  (if k.coordinate = c && (k.a = f || k.b = f) then matchOf f k row else none).filter (·.other = g)

theorem key_of_entryOfRow (h : k.a ≤ k.b) (hne : f ≠ g) (hs : (entryOfRow c f g k row).isSome) :
    k = pairKey c f g := by
  obtain ⟨m, hm⟩ := Option.isSome_iff_exists.mp hs
  unfold entryOfRow at hm
  rw [Option.filter_eq_some_iff] at hm
  obtain ⟨hm, hg⟩ := hm
  split at hm
  next hk =>
    rw [matchOf_eq, Option.map_eq_some_iff] at hm
    obtain ⟨u, -, rfl⟩ := hm
    exact key_of_entry h hne hk (of_decide_eq_true hg)
  next => cases hm

theorem entryOfRow_pairKey (hne : f ≠ g) :
    entryOfRow c f g (pairKey c f g) row = (rowView (f = (pairKey c f g).a) row).map (matchOfView g) := by
  have hcond : (decide ((pairKey c f g).coordinate = c) &&
      (decide ((pairKey c f g).a = f) || decide ((pairKey c f g).b = f))) = true := by
    unfold pairKey
    split <;> simp
  have hother : (if (pairKey c f g).a = f then (pairKey c f g).b else (pairKey c f g).a) = g := by
    unfold pairKey
    split
    · simp
    · simp [Ne.symm hne]
  have hx : decide ((pairKey c f g).a = f) = decide (f = (pairKey c f g).a) := decide_eq_decide.mpr eq_comm
  unfold entryOfRow
  rw [if_pos hcond, matchOf_eq, hother, hx]
  cases rowView (f = (pairKey c f g).a) row with
  | none => rfl
  | some u => simp [matchOfView, Option.filter]

theorem entries_eq (hf : Sound t) (hne : f ≠ g) : entries t c f g = ((view t c f g).map (matchOfView g)).toList := by
  have hrows : ∀ p ∈ t.rows, (entryOfRow c f g p.1 p.2).isSome → p.1 = pairKey c f g := fun p hp =>
    key_of_entryOfRow (hf.ordered p.1 p.2 (Keyed.mem_rows.mp hp)) hne
  unfold entries pairsFor
  rw [List.filter_filterMap]
  refine (Keyed.filterMap_rows (f := entryOfRow c f g) t hrows).trans ?_
  unfold view
  cases t.get? (pairKey c f g) with
  | none => rfl
  | some row => rw [Option.bind_some, Option.bind_some, entryOfRow_pairKey hne]

/-! ## What a direction reports -/

theorem scoredDirection_after {calls : List (Call ν)} (hr : ∀ e ∈ calls.flatMap events, e.reasoned) (hne : f ≠ g) :
    scoredDirection (after calls) c f g =
      (Latest.latest (writesTo c f g) (voids c f g) (calls.flatMap events)).map directionOf := by
  rw [scoredDirection_eq, (view_after hr hne).2, Option.map_map]
  rfl

theorem entries_after {calls : List (Call ν)} (hr : ∀ e ∈ calls.flatMap events, e.reasoned) (hne : f ≠ g) :
    entries (after calls) c f g =
      ((Latest.latest (writesTo c f g) (voids c f g) (calls.flatMap events)).map fun w =>
        matchOfView g (viewOf w)).toList := by
  obtain ⟨hf, hv⟩ := view_after (c := c) hr hne
  rw [entries_eq hf hne, hv, Option.map_map]
  rfl

theorem reports_after {calls : List (Call ν)} (hr : ∀ e ∈ calls.flatMap events, e.reasoned) (hne : f ≠ g) :
    Reports (after calls) c f g (Latest.latest (writesTo c f g) (voids c f g) (calls.flatMap events)) := by
  refine ⟨scoredDirection_after hr hne, ?_⟩
  rw [entries_after hr hne]
  cases hl : Latest.latest (writesTo c f g) (voids c f g) (calls.flatMap events) with
  | none => rfl
  | some w =>
    obtain ⟨before, e, since, -, he, -⟩ := Latest.latest_eq_some.mp hl
    have hg : w.toPk = g := by
      cases e with
      | put v =>
        simp only [writesTo, Option.ite_none_right_eq_some, Option.some.injEq] at he
        obtain ⟨⟨-, -, h⟩, rfl⟩ := he
        exact h
      | clearInvolving | clear => cases he
    simp [matchOfView, viewOf, entryOf, hg]

/-- **The shared row refines two directed caches**: a direction reports its
current write, or that there is none, and a write of the other direction for
the same inputs changes nothing it reports. -/
theorem reports_current {calls : List (Call ν)} (hr : ∀ e ∈ calls.flatMap events, e.reasoned) (hne : f ≠ g) :
    (∀ w, Current c f g calls w → Reports (after calls) c f g (some w)) ∧
    ((∀ w, ¬ Current c f g calls w) → Reports (after calls) c f g none) ∧
    ∀ v : DirectedScore ν, v.coordinate = c → v.fromPk = g → v.toPk = f → v.reasoning ≠ [] →
      (∀ d ∈ getPairDirection (after calls) c f g, d.inputs_hash = v.inputsHash) →
      scoredDirection (after (calls ++ [Call.putPairDirection v])) c f g = scoredDirection (after calls) c f g ∧
        entries (after (calls ++ [Call.putPairDirection v])) c f g = entries (after calls) c f g := by
  have hrep := reports_after (c := c) hr hne
  refine ⟨fun w hw => ?_, fun hn => ?_, fun v hc hfrom hto hv hh => ?_⟩
  · rwa [Latest.latest_eq_some.mpr hw] at hrep
  · cases hl : Latest.latest (writesTo c f g) (voids c f g) (calls.flatMap events) with
    | none => rwa [hl] at hrep
    | some w => exact absurd (Latest.latest_eq_some.mp hl) (hn w)
  · have hr' : ∀ e ∈ (calls ++ [Call.putPairDirection v]).flatMap events, e.reasoned := by
      intro e he
      rw [List.flatMap_append, List.mem_append] at he
      rcases he with he | he
      · exact hr e he
      · obtain rfl : e = .put v := by simpa [events] using he
        exact hv
    have hrep' := reports_after (c := c) hr' hne
    have hw : writesTo c f g (.put v) = none := if_neg fun h => hne (h.2.1.symm.trans hfrom)
    rw [List.flatMap_append, show [Call.putPairDirection v].flatMap events = [.put v] from rfl, Latest.latest_append,
      Latest.next, hw, Option.none_or] at hrep'
    -- The value that stands has the write's inputs, so the write does not void it.
    have hkeep : ∀ w, Latest.latest (writesTo c f g) (voids c f g) (calls.flatMap events) = some w →
        w.inputsHash = v.inputsHash := by
      intro w hl
      rw [hl] at hrep
      obtain ⟨hd, -⟩ := Option.filter_eq_some_iff.mp hrep.1
      exact hh _ hd
    cases hl : Latest.latest (writesTo c f g) (voids c f g) (calls.flatMap events) with
    | none =>
      rw [hl] at hrep hrep'
      exact ⟨hrep'.1.trans hrep.1.symm, hrep'.2.trans hrep.2.symm⟩
    | some w =>
      have hvoid : voids c f g w (.put v) = false := decide_eq_false fun h => h.2.2.2 (hkeep w hl).symm
      rw [hl] at hrep hrep'
      simp only [Option.filter, hvoid, Bool.not_false, if_true] at hrep'
      exact ⟨hrep'.1.trans hrep.1.symm, hrep'.2.trans hrep.2.symm⟩

def bobToAnn : DirectedScore Nat :=
  { coordinate := js "camp", fromPk := js "bob", toPk := js "ann", inputsHash := js "h", score := 7, similarity := 1,
    complementarity := 2, reasoning := js "sails", icebreakers := some [js "boats?"], now := 1 }

def annToBob : DirectedScore Nat :=
  { bobToAnn with fromPk := js "ann", toPk := js "bob", score := 3, reasoning := js "cooks", icebreakers := none }

theorem reports_current_bobToAnn :
    Reports (after [.putPairDirection bobToAnn, .putPairDirection annToBob]) (js "camp") (js "bob") (js "ann")
      (some bobToAnn) := by
  have hr : ∀ e ∈ [Call.putPairDirection bobToAnn, .putPairDirection annToBob].flatMap events, e.reasoned := by
    simp [events, Event.reasoned, bobToAnn, annToBob, js, unitsOfChar]
  exact (reports_current hr (by decide)).1 bobToAnn (Latest.latest_eq_some.mp rfl)

end Nostrautica.Pairs
