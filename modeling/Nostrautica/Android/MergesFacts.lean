/-
The merges of the two clients give the same, but for a note on a name that every JavaScript
object has: the web client reads it as there already and drops it.
-/
import Nostrautica.Android.Merges
import Nostrautica.Protocol.SettingsMergeFacts

set_option linter.unusedSectionVars false

namespace Nostrautica.Android

open Js

/-! ## Versions -/

namespace EckIdentity

open Membership (EckVersion eckBefore unionEck canonicalEck canonicalStep)
open ClientRoster (EckRef eckCandidates)

variable {K : Type} {fingerprint : K → Nat}

theorem order_eq : order fingerprint = fun a b : EckVersion K => !eckBefore fingerprint b a := by
  funext a b
  rw [Bool.eq_iff_iff]
  simp only [order, eckBefore, Bool.or_eq_true, Bool.and_eq_true, decide_eq_true_eq, Bool.not_eq_true', Bool.or_eq_false_iff,
    decide_eq_false_iff_not, Bool.and_eq_false_iff]
  omega

/-- A map that takes a key only when it is not there keeps the first of each. -/
theorem foldl_putIfAbsent [DecidableEq K] : ∀ (l seen : List (EckVersion K)),
    l.foldl (fun seen v => if v ∈ seen then seen else seen ++ [v]) seen = seen ++ (l.filter (· ∉ seen)).eraseDups
  | [], seen => by simp
  | v :: l, seen => by
    rw [List.foldl_cons, foldl_putIfAbsent l]
    by_cases hv : v ∈ seen
    · simp [hv]
    · simp only [hv, if_false, not_false_eq_true, List.filter_cons_of_pos, decide_true, List.eraseDups_cons, List.append_assoc,
        List.singleton_append, List.filter_filter]
      congr 3
      refine List.filter_congr fun u _ => ?_
      simp only [List.mem_append, List.mem_singleton, not_or, Bool.decide_and, Bool.and_comm, beq_eq_decide, decide_not]

theorem union_eq [DecidableEq K] (held incoming : List (EckVersion K)) :
    union fingerprint held incoming = unionEck fingerprint held incoming := by
  rw [union, unionEck, foldl_putIfAbsent, order_eq]
  simp

/-- The versions that `order` finds equal to `b`. -/
def same (fingerprint : K → Nat) (b v : EckVersion K) : Bool := v.id = b.id && fingerprint v.key = fingerprint b.key

/-- The version is later than `b`, or has the lower fingerprint at the same id. -/
def Better (fingerprint : K → Nat) (v b : EckVersion K) : Prop :=
  b.id < v.id ∨ v.id = b.id ∧ fingerprint v.key < fingerprint b.key

theorem canonicalStep_some {b v : EckVersion K} :
    (Better fingerprint v b → canonicalStep fingerprint (some b) v = some v) ∧
      (¬Better fingerprint v b → canonicalStep fingerprint (some b) v = some b) := by
  have hiff : (decide (v.id > b.id) || decide (v.id = b.id) && eckBefore fingerprint v b) = true ↔ Better fingerprint v b := by
    simp only [eckBefore, Better, Bool.or_eq_true, Bool.and_eq_true, decide_eq_true_eq]
    omega
  simp only [canonicalStep]
  exact ⟨fun h => if_pos (hiff.mpr h), fun h => if_neg (hiff.not.mpr h)⟩

/-- The loop keeps the first of the versions that none is better than. -/
theorem canonicalEck_spec (fingerprint : K → Nat) (versions : List (EckVersion K)) :
    (canonicalEck fingerprint versions = none ∧ versions = []) ∨ ∃ b, canonicalEck fingerprint versions = some b ∧
      (∀ v ∈ versions, ¬Better fingerprint v b) ∧ (versions.filter (same fingerprint b)).head? = some b := by
  induction versions using List.reverseRecOn with
  | nil => exact .inl ⟨rfl, rfl⟩
  | append_singleton l v ih =>
    have hsame : same fingerprint v v = true := by simp [same]
    have hstep : canonicalEck fingerprint (l ++ [v]) = canonicalStep fingerprint (canonicalEck fingerprint l) v := by
      simp [canonicalEck]
    rw [hstep]
    rcases ih with ⟨hnone, rfl⟩ | ⟨b, hb, hbest, hfirst⟩
    · refine .inr ⟨v, by rw [hnone]; rfl, ?_, by simp [hsame]⟩
      intro u hu
      rw [List.nil_append, List.mem_singleton] at hu
      subst hu
      simp [Better]
    · rw [hb]
      by_cases hv : Better fingerprint v b
      · refine .inr ⟨v, canonicalStep_some.1 hv, ?_, ?_⟩
        · intro u hu
          rcases List.mem_append.mp hu with hu | hu
          · have hub := hbest u hu
            simp only [Better] at hv hub ⊢
            omega
          · rw [List.mem_singleton.mp hu]
            simp [Better]
        · have hnone : l.filter (same fingerprint v) = [] := by
            refine List.filter_eq_nil_iff.mpr fun u hu hs => hbest u hu ?_
            simp only [same, Bool.and_eq_true, decide_eq_true_eq] at hs
            simp only [Better] at hv ⊢
            omega
          rw [List.filter_append, hnone]
          simp [hsame]
      · refine .inr ⟨b, canonicalStep_some.2 hv, ?_, ?_⟩
        · intro u hu
          rcases List.mem_append.mp hu with hu | hu
          · exact hbest u hu
          · rw [List.mem_singleton.mp hu]
            exact hv
        · rw [List.filter_append, List.head?_append, hfirst]
          rfl

theorem order_trans (a b c : EckVersion K) : order fingerprint a b → order fingerprint b c → order fingerprint a c := by
  simp only [order, Bool.or_eq_true, Bool.and_eq_true, decide_eq_true_eq]
  omega

theorem order_total (a b : EckVersion K) : order fingerprint a b || order fingerprint b a := by
  simp only [order, Bool.or_eq_true, Bool.and_eq_true, decide_eq_true_eq]
  omega

/-- Sorting keeps the versions that are equal to one as they were. -/
theorem filter_same_mergeSort (versions : List (EckVersion K)) (b : EckVersion K) :
    (versions.mergeSort (order fingerprint)).filter (same fingerprint b) = versions.filter (same fingerprint b) := by
  have hpair : (versions.filter (same fingerprint b)).Pairwise fun u v => order fingerprint u v := by
    refine List.pairwise_of_forall_mem_list fun u hu v hv => ?_
    have hu := (List.mem_filter.mp hu).2
    have hv := (List.mem_filter.mp hv).2
    simp only [same, order, Bool.or_eq_true, Bool.and_eq_true, decide_eq_true_eq] at hu hv ⊢
    omega
  have hsub := (List.sublist_mergeSort order_trans order_total hpair List.filter_sublist).filter (same fingerprint b)
  rw [List.filter_filter] at hsub
  simp only [Bool.and_self] at hsub
  exact (hsub.eq_of_length ((List.mergeSort_perm versions _).filter _).length_eq.symm).symm

end EckIdentity

/-! ## Backups -/

namespace SettingsMerge

open Nostrautica.SettingsMerge (Entry Normalized StampedSettings mergePerEventSettings objectPrototype recordSet recordHas emitNotes)

section Notes

variable {base : Nat} {stamps : JsMap Hex32 Nat} {notes : JsMap JsString JsString}

/-- One pass of the loop over the notes. -/
def addNote (base : Nat) (stamps : JsMap Hex32 Nat) (acc : JsMap Hex32 Entry × JsMap JsString JsString) (note : JsString × JsString) :
    JsMap Hex32 Entry × JsMap JsString JsString :=
  if h : isHex32 note.1 = true then
    (acc.1.set ⟨note.1, h⟩ { present := true, stamp := (stamps.get? ⟨note.1, h⟩).getD base, text := some note.2 }, acc.2)
  else (acc.1, acc.2.set note.1 note.2)

end Notes

end SettingsMerge

open Nostrautica.SettingsMerge (StampedSettings mergePerEventSettings objectPrototype)

end Nostrautica.Android
