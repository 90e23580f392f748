/-
Relay lists from untrusted records (`coordinator/src/net/relay-urls.ts`). What
the platform's `URL` makes of one entry, and the policy's checks on it, are a
parameter; the loop is not.
-/
import Mathlib

set_option linter.unusedSectionVars false

namespace Nostrautica

variable {U : Type*} [LinearOrder U]

/-- A `RelayPolicy`, with the URLs it is for: the form of an entry that passes,
which is an entry that passes and has its form already. -/
structure RelayPolicy (U : Type*) where
  cap : Nat
  normalize : U → Option U
  stable : ∀ raw u, normalize raw = some u → normalize u = some u

namespace RelayPolicy

variable (policy : RelayPolicy U)

/-- The loop of `sanitizeRelayUrls`, with what it has kept so far. -/
def sanitizeFrom (out : List U) : List U → List U
  | [] => out
  | raw :: urls =>
    if out.length ≥ policy.cap then out
    else
      match policy.normalize raw with
      | none => sanitizeFrom out urls
      | some u => if u ∈ out then sanitizeFrom out urls else sanitizeFrom (out ++ [u]) urls

/-- `sanitizeRelayUrls`. -/
def sanitizeRelayUrls (urls : List U) : List U := policy.sanitizeFrom [] urls

/-- A list that nothing is left to do to. -/
structure Clean (urls : List U) : Prop where
  nodup : urls.Nodup
  length_le : urls.length ≤ policy.cap
  normal : ∀ u ∈ urls, policy.normalize u = some u

variable {policy} {urls out : List U}

theorem clean_sanitizeFrom (h : policy.Clean out) : policy.Clean (policy.sanitizeFrom out urls) := by
  induction urls generalizing out with
  | nil => exact h
  | cons raw urls ih =>
    simp only [sanitizeFrom]
    split
    · exact h
    next hlen =>
      split
      · exact ih h
      next u hu =>
        split
        · exact ih h
        next hmem =>
          refine ih ⟨?_, ?_, fun v hv => ?_⟩
          · rw [List.nodup_append]
            exact ⟨h.nodup, List.nodup_singleton _, fun v hv w hw => by
              rw [List.mem_singleton.mp hw]
              exact fun hvu => hmem (hvu ▸ hv)⟩
          · rw [List.length_append, List.length_singleton]
            omega
          · rcases List.mem_append.mp hv with hv | hv
            · exact h.normal v hv
            · rw [List.mem_singleton.mp hv]
              exact policy.stable raw u hu

theorem clean_sanitize : policy.Clean (policy.sanitizeRelayUrls urls) :=
  clean_sanitizeFrom ⟨List.nodup_nil, Nat.zero_le _, by simp⟩

theorem sanitizeFrom_of_clean (h : policy.Clean (out ++ urls)) : policy.sanitizeFrom out urls = out ++ urls := by
  induction urls generalizing out with
  | nil => simp [sanitizeFrom]
  | cons u urls ih =>
    have hlen : out.length < policy.cap := by
      have := h.length_le
      simp only [List.length_append, List.length_cons] at this
      omega
    have hmem : u ∉ out := fun hu => (List.nodup_append.mp h.nodup).2.2 u hu u (.head _) rfl
    have hn : policy.normalize u = some u := h.normal u (by simp)
    simp only [sanitizeFrom, if_neg (Nat.not_le.mpr hlen), hn, if_neg hmem]
    rw [ih (by simpa using h), List.append_assoc, List.singleton_append]

/-- **A clean list is its own sanitized list.** -/
theorem sanitize_of_clean (h : policy.Clean urls) : policy.sanitizeRelayUrls urls = urls :=
  sanitizeFrom_of_clean (show policy.Clean ([] ++ urls) from h)

theorem Clean.perm (h : policy.Clean urls) (hp : urls.Perm out) : policy.Clean out :=
  ⟨hp.nodup_iff.mp h.nodup, hp.length_eq ▸ h.length_le, fun u hu => h.normal u (hp.mem_iff.mpr hu)⟩

end RelayPolicy

/-- `relayKey`: a relay list as a set. -/
def relayKey (relays : List U) : List U := relays.mergeSort fun a b => a ≤ b

theorem perm_of_relayKey {a b : List U} (h : relayKey a = relayKey b) : a.Perm b := by
  have ha : (relayKey a).Perm a := List.mergeSort_perm ..
  have hb : (relayKey b).Perm b := List.mergeSort_perm ..
  exact ha.symm.trans (h ▸ hb)

end Nostrautica
