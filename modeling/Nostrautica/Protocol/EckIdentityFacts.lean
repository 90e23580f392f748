/-
When the order in which versions of the event key arrive makes no difference
(`eck_order_free_iff`): when no key is held in two spellings. Base64 leaves two bits of the last
digit of a key out, and the schema takes any, so a key has four spellings; two of one id are ordered
as they came (`respelled_key`).
-/
import Nostrautica.Android.MergesFacts
import Nostrautica.Protocol.EckIdentity

namespace Nostrautica.EckIdentity

open Js
open Nostrautica.Membership (EckVersion eckBefore canonicalEck)
open ClientRoster (EckRef eckCandidates)
open Android.EckIdentity (order order_eq order_trans order_total Better same canonicalEck_spec filter_same_mergeSort foldl_putIfAbsent)

variable {hash : List UInt8 → Nat} {lists lists' : List (List (EckVersion JsString))} {v w : EckVersion JsString}

/-! ## Keys -/

/-- A digit of base64. -/
def isBase64Digit (c : CodeUnit) : Bool :=
  (65 ≤ c.val && c.val ≤ 90) || (97 ≤ c.val && c.val ≤ 122) || isDigit c || c.val == 43 || c.val == 47

theorem base64Digit_isSome {c : CodeUnit} (h : isBase64Digit c = true) : ∃ n, base64Digit c = some n := by
  simp only [isBase64Digit, isDigit, Bool.or_eq_true, Bool.and_eq_true, decide_eq_true_eq, beq_iff_eq] at h
  rw [base64Digit]
  split
  · exact ⟨_, rfl⟩
  split
  · exact ⟨_, rfl⟩
  split
  · exact ⟨_, rfl⟩
  split
  · exact ⟨_, rfl⟩
  split
  · exact ⟨_, rfl⟩
  · omega

theorem mapM_base64Digit : ∀ {s : JsString}, (∀ c ∈ s, ∃ n, base64Digit c = some n) → ∃ l, s.mapM base64Digit = some l
  | [], _ => ⟨[], rfl⟩
  | c :: s, h => by
    obtain ⟨n, hn⟩ := h c List.mem_cons_self
    obtain ⟨l, hl⟩ := mapM_base64Digit fun d hd => h d (List.mem_cons_of_mem c hd)
    exact ⟨n :: l, by simp [List.mapM_cons, hn, hl]⟩

theorem not_pad_mem {body : JsString} (h : ∀ c ∈ body, isBase64Digit c = true) : 61 ∉ body := by
  intro hmem
  have hnot : ¬ isBase64Digit 61 = true := by decide
  exact hnot (h 61 hmem)

/-- After digits and one `=`, the text does not end in two. -/
theorem not_two_pads {body : JsString} (h : ∀ c ∈ body, isBase64Digit c = true) : ¬ [61, 61] <:+ body ++ [61] := by
  intro hsuffix
  obtain ⟨r, hr⟩ := hsuffix
  have happ : r ++ [61, 61] = (r ++ [61]) ++ [61] := by
    rw [List.append_assoc]
    rfl
  rw [happ] at hr
  have hbody : r ++ [61] = body := List.append_cancel_right hr
  refine not_pad_mem h ?_
  rw [← hbody]
  exact List.mem_append_right r List.mem_cons_self

/-- A key of 32 bytes is 43 digits and an `=`. -/
theorem form_of_base64Bytes {s : JsString} (h : base64Bytes 32 s = true) :
    ∃ body, s = body ++ js "=" ∧ body.length = 43 ∧ ∀ c ∈ body, isBase64Digit c = true := by
  have hjs : js "=" = [61] := by decide
  have hjs2 : js "==" = [61, 61] := by decide
  simp only [base64Bytes, Bool.and_eq_true, decide_eq_true_eq] at h
  obtain ⟨hshape, hlen⟩ := h
  have hdigits : ∀ c ∈ s.takeWhile isBase64Digit, isBase64Digit c = true := fun c hc => List.mem_takeWhile_imp hc
  have hpad : (s.dropWhile isBase64Digit).length ≤ 2 ∧ ∀ c ∈ s.dropWhile isBase64Digit, c = 61 := by
    have hall : isBase64 s = (decide (s.takeWhile isBase64Digit ≠ []) && decide ((s.dropWhile isBase64Digit).length ≤ 2) &&
        (s.dropWhile isBase64Digit).all (·.val == 61)) := rfl
    rw [hall] at hshape
    simp only [Bool.and_eq_true, decide_eq_true_eq, List.all_eq_true, beq_iff_eq] at hshape
    exact ⟨hshape.1.2, fun c hc => Fin.ext (hshape.2 c hc)⟩
  have happ := List.takeWhile_append_dropWhile (p := isBase64Digit) (l := s)
  generalize s.takeWhile isBase64Digit = body at hdigits happ
  generalize s.dropWhile isBase64Digit = pad at hpad happ
  subst happ
  rw [hjs]
  simp only [decodedByteLength, hjs, hjs2, List.isSuffixOf_iff_suffix] at hlen
  have hpads := List.eq_replicate_iff.2 ⟨rfl, hpad.2⟩
  have hcount := hpad.1
  generalize pad.length = n at hpads hcount
  subst hpads
  interval_cases n
  · have h1 : ¬ [61] <:+ body ++ [] := by
      intro hsuffix
      rw [List.append_nil] at hsuffix
      exact not_pad_mem hdigits (hsuffix.subset List.mem_cons_self)
    have h2 : ¬ [61, 61] <:+ body ++ [] := fun h => h1 ((List.suffix_cons 61 [61]).trans h)
    rw [List.replicate_zero, if_neg h1, if_neg h2] at hlen
    split at hlen <;> omega
  · rw [List.replicate_one, if_neg (not_two_pads hdigits), if_pos (List.suffix_append _ _)] at hlen
    refine ⟨body, rfl, ?_, hdigits⟩
    simp only [List.length_append, List.length_cons, List.length_nil] at hlen
    split at hlen
    · omega
    · next hwhole =>
      simp only [Bool.or_eq_true, decide_eq_true_eq, not_or, not_not] at hwhole
      omega
  · have htwo : List.replicate 2 (61 : CodeUnit) = [61, 61] := rfl
    rw [htwo, if_pos (List.suffix_append _ _)] at hlen
    split at hlen <;> omega

theorem base64ToBytes_of_schema (h : eckVersionSchema v = true) : ∃ bytes, base64ToBytes v.key = some bytes := by
  simp only [eckVersionSchema, Bool.and_eq_true] at h
  obtain ⟨body, hkey, hlen, hdigits⟩ := form_of_base64Bytes h.2
  have hjs : js "=" = [61] := by decide
  have hjs2 : js "==" = [61, 61] := by decide
  have hclean : (body ++ js "=").filter (!isAsciiSpace ·) = body ++ js "=" := by
    refine List.filter_eq_self.2 fun c hc => ?_
    rw [hjs] at hc
    rcases List.mem_append.1 hc with hc | hc
    · have hd := hdigits c hc
      simp only [isBase64Digit, isDigit, Bool.or_eq_true, Bool.and_eq_true, decide_eq_true_eq, beq_iff_eq] at hd
      simp only [isAsciiSpace, Bool.not_eq_true', Bool.or_eq_false_iff, beq_eq_false_iff_ne]
      omega
    · rw [List.mem_singleton.1 hc]
      decide
  have hstrip : withoutPadding (body ++ js "=") = body := by
    rw [withoutPadding, hjs, hjs2]
    simp only [List.isSuffixOf_iff_suffix, List.length_append, hlen, List.length_singleton]
    rw [if_neg (by decide), if_neg (not_two_pads hdigits), if_pos (List.suffix_append _ _), List.take_left' hlen]
  obtain ⟨l, hl⟩ := mapM_base64Digit fun c hc => base64Digit_isSome (hdigits c hc)
  rw [base64ToBytes, hkey, hclean, hstrip]
  simp only [hlen, hl]
  exact ⟨_, rfl⟩

/-- The same versions arrive, in another order of the lists and within them. -/
def Rearranged (lists lists' : List (List (EckVersion JsString))) : Prop :=
  ∃ between, lists.Perm between ∧ List.Forall₂ List.Perm between lists'

theorem Rearranged.flatten (h : Rearranged lists lists') : lists.flatten.Perm lists'.flatten := by
  obtain ⟨between, hperm, hall⟩ := h
  refine hperm.flatten.trans ?_
  clear hperm
  induction hall with
  | nil => exact .nil
  | cons hab _ ih => exact hab.append ih

/-- A version may arrive first. -/
theorem exists_rearranged_first (hv : v ∈ lists.flatten) : ∃ rest, ∃ lists', Rearranged lists lists' ∧ lists'.flatten = v :: rest := by
  obtain ⟨list, hlist, hin⟩ := List.mem_flatten.1 hv
  clear hv
  obtain ⟨a, b, rfl⟩ := List.append_of_mem hlist
  obtain ⟨c, d, rfl⟩ := List.append_of_mem hin
  refine ⟨c ++ d ++ (a ++ b).flatten, (v :: (c ++ d)) :: (a ++ b), ⟨(c ++ v :: d) :: (a ++ b), List.perm_middle, ?_⟩, rfl⟩
  exact .cons List.perm_middle (List.forall₂_same.2 fun l _ => .refl l)

/-! ## The union -/

theorem seen_eq (lists : List (List (EckVersion JsString))) :
    lists.foldl (fun seen list => list.foldl see seen) [] = lists.flatten.eraseDups := by
  rw [← List.foldl_flatten]
  refine (foldl_putIfAbsent lists.flatten []).trans ?_
  rw [List.nil_append, List.filter_eq_self.2 fun v _ => by simp]

theorem unionEck_eq (lists : List (List (EckVersion JsString))) :
    unionEck hash lists = lists.flatten.eraseDups.mergeSort (order (eckFingerprint hash)) := by
  rw [unionEck, seen_eq, order_eq]

/-- Among the versions that compare equal, the first to arrive is first in the union. -/
theorem head?_union_same (hash : List UInt8 → Nat) {rest : List (EckVersion JsString)} (h : lists.flatten = v :: rest) :
    ((unionEck hash lists).filter (same (eckFingerprint hash) v)).head? = some v := by
  have hv : same (eckFingerprint hash) v v = true := by simp [same]
  rw [unionEck_eq, filter_same_mergeSort, h, List.eraseDups_cons, List.filter_cons_of_pos hv]
  rfl

/-- No two versions compare equal. -/
def Separate (hash : List UInt8 → Nat) (versions : List (EckVersion JsString)) : Prop :=
  ∀ v ∈ versions, ∀ w ∈ versions, same (eckFingerprint hash) v w = true → v = w

theorem unionEck_congr (h : Rearranged lists lists') (hsep : Separate hash lists.flatten) :
    unionEck hash lists' = unionEck hash lists := by
  have hperm := h.flatten
  rw [unionEck_eq, unionEck_eq]
  have hdups : lists'.flatten.eraseDups.Perm lists.flatten.eraseDups := by
    refine (List.perm_ext_iff_of_nodup (nodup_eraseDups _) (nodup_eraseDups _)).2 fun v => ?_
    rw [List.mem_eraseDups, List.mem_eraseDups, hperm.mem_iff]
  have hsorted : ∀ l : List (EckVersion JsString),
      (l.mergeSort (order (eckFingerprint hash))).Pairwise fun v w => order (eckFingerprint hash) v w = true :=
    List.pairwise_mergeSort order_trans order_total
  refine List.Perm.eq_of_pairwise (fun v w hv hw hvw hwv => ?_) (hsorted _) (hsorted _)
    (((List.mergeSort_perm _ _).trans hdups).trans (List.mergeSort_perm _ _).symm)
  have hv : v ∈ lists.flatten := by
    rw [List.mem_mergeSort, List.mem_eraseDups] at hv
    exact hperm.mem_iff.2 hv
  have hw : w ∈ lists.flatten := by simpa using hw
  refine hsep v hv w hw ?_
  simp only [order, Bool.or_eq_true, Bool.and_eq_true, decide_eq_true_eq] at hvw hwv
  simp only [same, Bool.and_eq_true, decide_eq_true_eq]
  omega

/-! ## The current version -/

theorem canonicalEck_congr {l l' : List (EckVersion JsString)} (hperm : l.Perm l') (hsep : Separate hash l) :
    canonicalEck (eckFingerprint hash) l' = canonicalEck (eckFingerprint hash) l := by
  rcases canonicalEck_spec (eckFingerprint hash) l with ⟨hnone, rfl⟩ | ⟨b, hb, hbest, hfirst⟩
  · rw [List.nil_perm.1 hperm]
  rcases canonicalEck_spec (eckFingerprint hash) l' with ⟨hnone, rfl⟩ | ⟨b', hb', hbest', hfirst'⟩
  · rw [List.perm_nil.1 hperm]
  have hmem : b ∈ l := (List.mem_filter.1 (List.mem_of_head? hfirst)).1
  have hmem' : b' ∈ l := hperm.mem_iff.2 (List.mem_filter.1 (List.mem_of_head? hfirst')).1
  rw [hb, hb', hsep b' hmem' b hmem ?_]
  have h := hbest b' hmem'
  have h' := hbest' b (hperm.mem_iff.1 hmem)
  simp only [Better] at h h'
  simp only [same, Bool.and_eq_true, decide_eq_true_eq]
  omega

/-- **The first candidate of the highest id is the current version.** -/
theorem head?_eckCandidates {l : List (EckVersion JsString)} {id : Nat} (hid : ∃ v ∈ l, v.id = id) (hmax : ∀ v ∈ l, v.id ≤ id)
    (hsep : Separate hash l) :
    (eckCandidates (eckFingerprint hash) l ⟨id, none⟩).head? = canonicalEck (eckFingerprint hash) l := by
  obtain ⟨v, hv, rfl⟩ := hid
  have hcand : eckCandidates (eckFingerprint hash) l ⟨v.id, none⟩ =
      (l.filter (·.id = v.id)).mergeSort (order (eckFingerprint hash)) := by
    rw [eckCandidates, order_eq]
    simp
  have hmem : ∀ u, u ∈ eckCandidates (eckFingerprint hash) l ⟨v.id, none⟩ ↔ u ∈ l ∧ u.id = v.id := fun u => by
    rw [hcand, List.mem_mergeSort]
    simp
  have hsorted : (eckCandidates (eckFingerprint hash) l ⟨v.id, none⟩).Pairwise fun a b => order (eckFingerprint hash) a b := by
    rw [hcand]
    exact List.pairwise_mergeSort order_trans order_total _
  rcases canonicalEck_spec (eckFingerprint hash) l with ⟨-, rfl⟩ | ⟨b, hb, hbest, hfirst⟩
  · cases hv
  have hbl : b ∈ l := (List.mem_filter.1 (List.mem_of_head? hfirst)).1
  have hbid : b.id = v.id := by
    have h := hbest v hv
    have h' := hmax b hbl
    simp only [Better] at h
    omega
  rw [hb]
  have hbc := (hmem b).2 ⟨hbl, hbid⟩
  cases hc : eckCandidates (eckFingerprint hash) l ⟨v.id, none⟩ with
  | nil =>
    rw [hc] at hbc
    cases hbc
  | cons c rest =>
    have hcl := (hmem c).1 (hc ▸ List.mem_cons_self)
    rw [hc] at hbc hsorted
    rcases List.mem_cons.1 hbc with rfl | hbr
    · rfl
    · have hle := (List.pairwise_cons.1 hsorted).1 b hbr
      have hnot := hbest c hcl.1
      rw [List.head?_cons, hsep c hcl.1 b hbl ?_]
      simp only [order, Bool.or_eq_true, Bool.and_eq_true, decide_eq_true_eq] at hle
      simp only [Better] at hnot
      simp only [same, Bool.and_eq_true, decide_eq_true_eq]
      omega

/-! ## The order of arrival -/

/-- The order in which versions arrive makes no difference: to their union, to the current version, or to which key is tried
first for a record of the highest id. -/
def OrderFree (hash : List UInt8 → Nat) (lists : List (List (EckVersion JsString))) : Prop :=
  ∀ lists', Rearranged lists lists' →
    unionEck hash lists' = unionEck hash lists ∧
    canonicalEck (eckFingerprint hash) lists'.flatten = canonicalEck (eckFingerprint hash) lists.flatten ∧
    ∀ id, (∃ v ∈ lists.flatten, v.id = id) → (∀ v ∈ lists.flatten, v.id ≤ id) →
      (eckCandidates (eckFingerprint hash) lists'.flatten ⟨id, none⟩).head? = canonicalEck (eckFingerprint hash) lists.flatten

theorem orderFree_iff_separate : OrderFree hash lists ↔ Separate hash lists.flatten := by
  constructor
  · intro h v hv w hw hsame
    obtain ⟨restV, first, hfirst, hv⟩ := exists_rearranged_first hv
    obtain ⟨restW, second, hsecond, hw⟩ := exists_rearranged_first hw
    have hheadV := head?_union_same hash hv
    have hheadW := head?_union_same hash hw
    have heq : same (eckFingerprint hash) w = same (eckFingerprint hash) v := by
      funext u
      simp only [same, Bool.and_eq_true, decide_eq_true_eq] at hsame ⊢
      rw [hsame.1, hsame.2]
    rw [(h first hfirst).1] at hheadV
    rw [(h second hsecond).1, heq, hheadV] at hheadW
    exact Option.some.inj hheadW
  · intro hsep lists' h
    have hperm := h.flatten
    refine ⟨unionEck_congr h hsep, canonicalEck_congr hperm hsep, fun id hid hmax => ?_⟩
    have hsep' : Separate hash lists'.flatten := fun v hv w hw =>
      hsep v (hperm.mem_iff.2 hv) w (hperm.mem_iff.2 hw)
    rw [head?_eckCandidates (hid.imp fun v hv => ⟨hperm.mem_iff.1 hv.1, hv.2⟩) (fun v hv => hmax v (hperm.mem_iff.2 hv)) hsep',
      canonicalEck_congr hperm hsep]

/-- **The order of arrival makes no difference just where no key is held in two spellings under one id**, where different
bytes have different fingerprints. -/
theorem eck_order_free_iff {hash : List UInt8 → Nat} {lists : List (List (EckVersion JsString))}
    (hschema : ∀ v ∈ lists.flatten, eckVersionSchema v = true)
    (hinj : ∀ v ∈ lists.flatten, ∀ w ∈ lists.flatten, ∀ a b, base64ToBytes v.key = some a → base64ToBytes w.key = some b →
      hash a = hash b → a = b) :
    OrderFree hash lists ↔ ∀ v ∈ lists.flatten, ∀ w ∈ lists.flatten, v.id = w.id →
      base64ToBytes v.key = base64ToBytes w.key → v.key = w.key := by
  rw [orderFree_iff_separate]
  refine forall₄_congr fun v hv w hw => ?_
  obtain ⟨a, ha⟩ := base64ToBytes_of_schema (hschema v hv)
  obtain ⟨b, hb⟩ := base64ToBytes_of_schema (hschema w hw)
  have hfp : eckFingerprint hash v.key = eckFingerprint hash w.key ↔ base64ToBytes v.key = base64ToBytes w.key := by
    rw [eckFingerprint, eckFingerprint, ha, hb]
    simp only [Option.getD_some, Option.some.injEq]
    exact ⟨hinj v hv w hw a b ha hb, congrArg hash⟩
  obtain ⟨i, k⟩ := v
  obtain ⟨j, l⟩ := w
  simp only [same, Bool.and_eq_true, decide_eq_true_eq, Membership.EckVersion.mk.injEq] at hfp ⊢
  rw [eq_comm (a := j), eq_comm (a := eckFingerprint hash l), hfp]
  constructor
  · intro h hid hkey
    exact (h ⟨hid, hkey⟩).2
  · rintro h ⟨hid, hkey⟩
    exact ⟨hid, h hid hkey⟩

namespace Small

/-- A hash that tells all keys apart: the bytes as a number. -/
def number (bytes : List UInt8) : Nat := Nat.ofDigits 256 (bytes.map UInt8.toNat)

theorem number_injective {a b : List UInt8} (hlen : a.length = b.length) (h : number a = number b) : a = b := by
  have hlt : ∀ (l : List UInt8), ∀ n ∈ l.map UInt8.toNat, n < 256 := fun l n hn => by
    obtain ⟨x, -, rfl⟩ := List.mem_map.1 hn
    exact x.toNat_lt
  have hmap := Nat.ofDigits_inj_of_len_eq (by decide) (by rw [List.length_map, List.length_map, hlen]) (hlt a) (hlt b) h
  exact List.map_injective_iff.2 (fun x y => UInt8.toNat_inj.1) hmap

/-- The key of 32 zero bytes. -/
def zeros : JsString := List.replicate 43 (codeUnit 65) ++ js "="

/-- The same key: of the last digit, `A` or `B`, only the first four bits count. -/
def zerosRespelled : JsString := List.replicate 42 (codeUnit 65) ++ js "B="

def other : JsString := List.replicate 42 (codeUnit 66) ++ js "A="

/-- The schema takes all three, and the first two are decoded to the same 32 bytes. -/
theorem keys : (base64Bytes 32 zeros = true ∧ base64Bytes 32 zerosRespelled = true ∧ base64Bytes 32 other = true) ∧
    base64ToBytes zeros = base64ToBytes zerosRespelled ∧ zeros ≠ zerosRespelled ∧ base64ToBytes zeros ≠ base64ToBytes other ∧
    (base64ToBytes zeros).map List.length = some 32 ∧ (base64ToBytes other).map List.length = some 32 := by
  decide +kernel

theorem schema {id : Nat} {k : JsString} (hid : 0 < id ∧ id < 10) (hk : base64Bytes 32 k = true) : eckVersionSchema ⟨id, k⟩ = true := by
  have hlimit : 10 < numberLimit := by decide +kernel
  simp only [eckVersionSchema, hk, isNumberInt, Bool.and_eq_true, decide_eq_true_eq, and_true, Int.natAbs_natCast]
  omega

end Small

open Small

/-- Two versions of different keys, in two lists. -/
theorem eck_order_free_two : OrderFree number [[⟨1, zeros⟩], [⟨2, other⟩, ⟨1, other⟩]] := by
  have hkeys : ∀ v ∈ [[⟨1, zeros⟩], [⟨2, other⟩, (⟨1, other⟩ : EckVersion JsString)]].flatten, v.key = zeros ∨ v.key = other := by
    simp
  have hlen : ∀ k, k = zeros ∨ k = other → ∀ a, base64ToBytes k = some a → a.length = 32 := by
    rintro k (rfl | rfl) a ha
    · simpa [ha] using keys.2.2.2.2.1
    · simpa [ha] using keys.2.2.2.2.2
  have hschema : ∀ v ∈ [[⟨1, zeros⟩], [⟨2, other⟩, (⟨1, other⟩ : EckVersion JsString)]].flatten, eckVersionSchema v = true := by
    simp [schema, keys]
  refine (eck_order_free_iff hschema fun v hv w hw a b ha hb h =>
    number_injective ((hlen _ (hkeys v hv) a ha).trans (hlen _ (hkeys w hw) b hb).symm) h).2 fun v hv w hw _ h => ?_
  rcases hkeys v hv with hv | hv <;> rcases hkeys w hw with hw | hw <;> rw [hv, hw] at h ⊢
  · exact absurd h keys.2.2.2.1
  · exact absurd h.symm keys.2.2.2.1

/-- **One key in two spellings**: the schema takes both, no hash tells them apart, and which comes first depends on which arrived
first. -/
theorem respelled_key : eckVersionSchema ⟨2, zeros⟩ = true ∧ eckVersionSchema ⟨2, zerosRespelled⟩ = true ∧
    base64ToBytes zeros = base64ToBytes zerosRespelled ∧
    (∀ a b : List UInt8, a.length = b.length → number a = number b → a = b) ∧
    canonicalEck (eckFingerprint number) [⟨2, zeros⟩, ⟨2, zerosRespelled⟩] = some ⟨2, zeros⟩ ∧
    canonicalEck (eckFingerprint number) [⟨2, zerosRespelled⟩, ⟨2, zeros⟩] = some ⟨2, zerosRespelled⟩ ∧
    ¬ OrderFree number [[⟨2, zeros⟩], [⟨2, zerosRespelled⟩]] := by
  have hfp : eckFingerprint number zeros = eckFingerprint number zerosRespelled := by
    have hschema : eckVersionSchema ⟨2, zeros⟩ = true := schema (by decide) keys.1.1
    obtain ⟨bytes, hbytes⟩ := base64ToBytes_of_schema hschema
    rw [eckFingerprint, eckFingerprint, ← keys.2.1, hbytes, Option.getD_some, Option.getD_some]
  refine ⟨schema (by decide) keys.1.1, schema (by decide) keys.1.2.1, keys.2.1, fun a b => number_injective, ?_, ?_, ?_⟩
  · simp [canonicalEck, Membership.canonicalStep, eckBefore, hfp]
  · simp [canonicalEck, Membership.canonicalStep, eckBefore, hfp]
  · rw [orderFree_iff_separate]
    intro hsep
    have h := hsep ⟨2, zeros⟩ (by simp) ⟨2, zerosRespelled⟩ (by simp) (by simp [same, hfp])
    exact keys.2.2.1 (congrArg Membership.EckVersion.key h)

end Nostrautica.EckIdentity
