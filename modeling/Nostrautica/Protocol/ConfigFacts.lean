/-
Re-publishing a parsed config changes nothing.

What the parser returns is normal (`parse_normal`): its strings are there, its
numbers are numbers, its lists have no repetition where the parser drops them.
Tags built from a table with distinct names are read back by name
(`first_tagsOf`, `all_tagsOf`), so a normal config passes the builder's checks
and is read back field by field (`readFields_blocks`).
-/
import Nostrautica.Js.Map
import Nostrautica.Js.NumberFacts
import Nostrautica.Protocol.Config

namespace Nostrautica.Config

open Js

/-! ## Reading a table back -/

/-- No two blocks have one name. -/
def DistinctNames (blocks : List (String × List (List JsString))) : Prop := (blocks.map fun b => js b.1).Nodup

theorem filter_tagsOf {blocks : List (String × List (List JsString))} (hd : DistinctNames blocks) {name : String}
    {rows : List (List JsString)} (h : (name, rows) ∈ blocks) :
    (tagsOf blocks).filter (fun t => t.head? == some (js name)) = rows.map fun values => js name :: values := by
  have other : ∀ (blocks : List (String × List (List JsString))), (∀ b ∈ blocks, js b.1 ≠ js name) →
      (tagsOf blocks).filter (fun t => t.head? == some (js name)) = [] := by
    intro blocks hne
    refine List.filter_eq_nil_iff.2 fun t ht => ?_
    obtain ⟨b, hb, ht⟩ := List.mem_flatMap.1 ht
    obtain ⟨values, -, rfl⟩ := List.mem_map.1 ht
    simpa using hne b hb
  induction blocks with
  | nil => cases h
  | cons b blocks ih =>
    obtain ⟨hb, hrest⟩ := List.nodup_cons.1 hd
    rw [tagsOf, List.flatMap_cons, List.filter_append]
    rcases List.mem_cons.1 h with rfl | h
    · have hself : (rows.map fun values => js name :: values).filter (fun t => t.head? == some (js name)) =
          rows.map fun values => js name :: values := by
        refine List.filter_eq_self.2 fun t ht => ?_
        obtain ⟨values, -, rfl⟩ := List.mem_map.1 ht
        simp
      rw [hself]
      have := other blocks fun c hc he => hb (List.mem_map.2 ⟨c, hc, he⟩)
      rw [tagsOf] at this
      rw [this, List.append_nil]
    · have hne : js b.1 ≠ js name := fun he => hb (List.mem_map.2 ⟨(name, rows), h, he.symm⟩)
      have hskip := other [b] fun c hc => by rw [List.mem_singleton.1 hc]; exact hne
      have := ih hrest h
      rw [tagsOf] at this
      rw [this]
      rw [tagsOf, List.flatMap_singleton] at hskip
      rw [hskip, List.nil_append]

theorem findTag_tagsOf {blocks : List (String × List (List JsString))} (hd : DistinctNames blocks) {name : String}
    {rows : List (List JsString)} (h : (name, rows) ∈ blocks) :
    findTag (tagsOf blocks) name = rows.head?.map fun values => js name :: values := by
  rw [findTag, ← List.head?_filter, filter_tagsOf hd h, List.head?_map]

/-- **The first tag of a name holds the first of its block's values.** -/
theorem first_tagsOf {blocks : List (String × List (List JsString))} (hd : DistinctNames blocks) {name : String}
    {rows : List (List JsString)} (h : (name, rows) ∈ blocks) :
    first (tagsOf blocks) name = rows.head?.bind List.head? := by
  rw [first, findTag_tagsOf hd h]
  cases rows with
  | nil => rfl
  | cons r rows => simp [List.head?_eq_getElem?]

/-- **All tags of a name hold its block's values**, but for empty ones. -/
theorem all_tagsOf {blocks : List (String × List (List JsString))} (hd : DistinctNames blocks) {name : String}
    {values : List JsString} (h : (name, each values) ∈ blocks) :
    all (tagsOf blocks) name = values.filter (· ≠ []) := by
  have key : ∀ values : List JsString,
      (values.map fun v => js name :: [v]).filterMap (fun t => truthy t[1]?) = values.filter (· ≠ []) := by
    intro values
    induction values with
    | nil => rfl
    | cons v values ih =>
      have ht : truthy [js name, v][1]? = if v = [] then none else some v := by
        by_cases hv : v = [] <;> simp [truthy, Option.filter, hv]
      rw [List.map_cons, List.filterMap_cons, ih, ht]
      by_cases hv : v = [] <;> simp [hv]
  rw [all, filter_tagsOf hd h, each, List.map_map]
  exact key values

theorem distinctNames_blocks (cfg : EventConfig) : DistinctNames cfg.blocks := by
  simp only [DistinctNames, EventConfig.blocks, List.map_cons, List.map_nil]
  decide

/-! ## What the parser returns -/

/-- A value `urlValues` lets through. -/
def HasProtocol (url : JsString → Option Url) (protocol : String) (v : JsString) : Prop :=
  v ≠ [] ∧ (url v).any (fun u => u.protocol == js protocol) = true

/-- What every parsed config is. -/
structure Normal (url : JsString → Option Url) (cfg : EventConfig) : Prop where
  d : cfg.d ≠ []
  inbox : isHex32 cfg.inbox = true
  coordinator : cfg.coordinator = none ∧ cfg.coordinatorGen = none ∨ ∃ pk gen, cfg.coordinator = some pk ∧
    cfg.coordinatorGen = some gen ∧ isHex32 pk = true ∧ 1 ≤ gen ∧ IsDouble gen
  relays : ∀ r ∈ cfg.relays, HasProtocol url "wss:" r ∧ isChatInteropRelay url r = false
  chatRelays : ∀ r ∈ cfg.chatRelays, HasProtocol url "wss:" r
  chatRelays_nodup : cfg.chatRelays.Nodup
  blossom : ∀ b ∈ cfg.blossom, HasProtocol url "https:" b
  maxVideoSec : IsDouble cfg.maxVideoSec
  maxTalkSec : IsDouble cfg.maxTalkSec
  eck : 1 ≤ cfg.eck ∧ IsDouble cfg.eck
  nostrContext : IsDouble cfg.nostrContext
  lang : normalizeLang (some cfg.lang) = cfg.lang
  chat : cfg.chat.Nodup
  retentionDays : ∀ n, cfg.retentionDays = some n → 1 ≤ n ∧ IsDouble n
  parent : ∀ p, cfg.parent = some p → isValidParentCoordinate p = true
  children : ∀ l, cfg.children = some l →
    l ≠ [] ∧ l.Nodup ∧ l.length ≤ maxChildren ∧ ∀ c ∈ l, isValidChildCoordinate c = true
  spaceKind : cfg.spaceKind = none ∨ cfg.spaceKind = some kindCommunity

theorem mem_all {tags : List Tag} {name : String} {v : JsString} (h : v ∈ all tags name) : v ≠ [] := by
  obtain ⟨t, -, ht⟩ := List.mem_filterMap.1 h
  have := (Option.filter_eq_some_iff.1 ht).2
  simpa using this

theorem mem_urlValues {url : JsString → Option Url} {tags : List Tag} {name protocol : String} {v : JsString}
    (h : v ∈ urlValues url tags name protocol) : HasProtocol url protocol v := by
  obtain ⟨hm, hp⟩ := List.mem_filter.1 h
  exact ⟨mem_all hm, hp⟩

theorem isDouble_intTag (tags : List Tag) (name : String) {default : Nat} (h : IsDouble default) :
    IsDouble (intTag tags name default) := by
  simp only [intTag]
  split
  · exact h
  · next raw _ =>
    split
    · exact h
    · cases hf : (toNumber raw).floorNonneg? with
      | none => exact h
      | some n => exact rounded_toNumber raw n hf

theorem of_positiveInt {raw : JsString} {n : Nat} (h : positiveInt raw = some n) : 1 ≤ n ∧ IsDouble n := by
  obtain ⟨hn, hle⟩ := Option.filter_eq_some_iff.1 h
  exact ⟨by simpa using hle, rounded_toNumber raw n (floorNonneg?_of_toNat? hn)⟩

theorem of_readCoordinator {tags : List Tag} {p : JsString × Nat} (h : readCoordinator tags = some p) :
    isHex32 p.1 = true ∧ 1 ≤ p.2 ∧ IsDouble p.2 := by
  obtain ⟨tag, -, h⟩ := Option.bind_eq_some_iff.1 h
  obtain ⟨pk, -, h⟩ := Option.bind_eq_some_iff.1 h
  obtain ⟨raw, -, h⟩ := Option.bind_eq_some_iff.1 h
  split at h
  · next hpk =>
    obtain ⟨gen, hg, h⟩ := Option.bind_eq_some_iff.1 h
    cases h
    exact ⟨hpk, of_positiveInt hg⟩
  · cases h

/-- A two-letter lowercase code, which is what `normalizeLang` returns. -/
def IsLang (s : JsString) : Prop := s.length = 2 ∧ ∀ c ∈ s, 97 ≤ c.val ∧ c.val ≤ 122

theorem isLang_normalizeLang (lang : Option JsString) : IsLang (normalizeLang lang) := by
  simp only [normalizeLang]
  split
  · next h => exact ⟨h.1, fun c hc => by simpa using List.all_eq_true.1 h.2 c hc⟩
  · have hen : js "en" = [101, 110] := by decide
    rw [hen]
    exact ⟨rfl, by simp⟩

/-- A code is its own normal form. -/
theorem normalizeLang_of_isLang {s : JsString} (h : IsLang s) : normalizeLang (some s) = s := by
  have htrim : trim s = s := trim_eq_self fun c hc => by
    have := h.2 c hc
    simp only [isSpace, Bool.or_eq_false_iff, Bool.and_eq_false_iff, decide_eq_false_iff_not, beq_eq_false_iff_ne]
    omega
  have hlower : toLowerCase s = s := by
    have key : ∀ l : JsString, (∀ c ∈ l, 97 ≤ c.val ∧ c.val ≤ 122) → l.flatMap lowerUnit = l := by
      intro l
      induction l with
      | nil => intro _; rfl
      | cons c l ih =>
        intro hl
        have hc := hl c List.mem_cons_self
        have hu : lowerUnit c = [c] := by
          simp only [lowerUnit]
          rw [if_neg (by omega), if_neg (by omega), if_neg (by omega)]
        rw [List.flatMap_cons, hu, ih fun d hd => hl d (List.mem_cons_of_mem c hd), List.singleton_append]
    exact key s h.2
  have htake : s.takeWhile (fun c => c.val ≠ 45 && c.val ≠ 95) = s := by
    refine List.takeWhile_eq_self_iff.2 fun c hc => ?_
    have := h.2 c hc
    simp only [Bool.and_eq_true, decide_eq_true_eq]
    omega
  have hall : s.all (fun c => 97 ≤ c.val && c.val ≤ 122) = true := List.all_eq_true.2 fun c hc => by
    simpa using h.2 c hc
  simp only [normalizeLang, Option.getD_some, htrim, hlower, htake, h.1, hall]
  simp

theorem readFields_normal {url : JsString → Option Url} {eidPubkey d inbox : JsString} {tags : List Tag} (hd : d ≠ [])
    (hi : isHex32 inbox = true) : Normal url (readFields url eidPubkey d inbox tags) where
  d := hd
  inbox := hi
  coordinator := by
    simp only [readFields]
    cases hc : readCoordinator tags with
    | none => exact .inl ⟨rfl, rfl⟩
    | some p =>
      exact .inr ⟨p.1, p.2, rfl, rfl, of_readCoordinator hc⟩
  relays r hr := by
    obtain ⟨hm, hn⟩ := List.mem_filter.1 hr
    exact ⟨mem_urlValues hm, by simpa using hn⟩
  chatRelays r hr := by
    rcases List.mem_append.1 (List.mem_eraseDups.1 hr) with hr | hr
    · exact mem_urlValues hr
    · exact mem_urlValues (List.mem_filter.1 hr).1
  chatRelays_nodup := nodup_eraseDups _
  blossom b hb := mem_urlValues hb
  maxVideoSec := isDouble_intTag _ _ (by decide +kernel)
  maxTalkSec := isDouble_intTag _ _ (by decide +kernel)
  eck := by
    have h1 : IsDouble 1 := by decide +kernel
    refine ⟨le_max_left _ _, ?_⟩
    simp only [readFields]
    rcases max_choice 1 (intTag tags "eck" 1) with h | h
    · rw [h]; exact h1
    · rw [h]; exact isDouble_intTag _ _ h1
  nostrContext := isDouble_intTag _ _ (by decide +kernel)
  lang := normalizeLang_of_isLang (isLang_normalizeLang _)
  chat := nodup_eraseDups _
  retentionDays n hn := by
    obtain ⟨raw, -, hr⟩ := Option.bind_eq_some_iff.1 hn
    exact of_positiveInt hr
  parent p hp := (Option.filter_eq_some_iff.1 hp).2
  children l hl := by
    simp only [readFields] at hl
    split at hl
    · cases hl
    · next hne =>
      cases hl
      refine ⟨hne, (nodup_eraseDups _).sublist (List.take_sublist _ _), List.length_take_le _ _, fun c hc => ?_⟩
      have := List.mem_eraseDups.1 (List.mem_of_mem_take hc)
      exact (List.mem_filter.1 this).2
  spaceKind := by
    simp only [readFields]
    split
    · exact .inr rfl
    · exact .inl rfl

theorem parse_normal {url : JsString → Option Url} {eidPubkey : JsString} {tags : List Tag} {cfg : EventConfig}
    (h : parseEventConfig url eidPubkey tags = .ok cfg) : Normal url cfg ∧ cfg.eidPubkey = eidPubkey := by
  unfold parseEventConfig at h
  split at h
  · next d inbox hd hi =>
    simp only at h
    split at h
    · cases h
      have hd := (Option.filter_eq_some_iff.1 hd).2
      have hi := (Option.filter_eq_some_iff.1 hi).2
      exact ⟨readFields_normal (by simpa using hd) hi, rfl⟩
    · split at h
      · split at h <;> cases h
      · cases h
  · cases h

/-! ## Reading the built tags -/

section Blocks

variable {url : JsString → Option Url} {cfg : EventConfig}

/-- The tags the builder makes of a config. -/
abbrev EventConfig.tags (cfg : EventConfig) : List Tag := tagsOf cfg.blocks

theorem first_tags {name : String} {rows : List (List JsString)} (h : (name, rows) ∈ cfg.blocks) :
    first cfg.tags name = rows.head?.bind List.head? := first_tagsOf (distinctNames_blocks cfg) h

theorem all_tags {name : String} {values : List JsString} (h : (name, each values) ∈ cfg.blocks)
    (hv : ∀ v ∈ values, v ≠ []) : all cfg.tags name = values := by
  rw [all_tagsOf (distinctNames_blocks cfg) h, List.filter_eq_self]
  simpa using hv

theorem urlValues_tags {name protocol : String} {values : List JsString} (h : (name, each values) ∈ cfg.blocks)
    (hv : ∀ v ∈ values, HasProtocol url protocol v) : urlValues url cfg.tags name protocol = values := by
  rw [urlValues, all_tags h fun v hm => (hv v hm).1, List.filter_eq_self]
  exact fun v hm => (hv v hm).2

theorem intTag_tags {name : String} {n default : Nat} (h : (name, [[natToString n]]) ∈ cfg.blocks) (hn : IsDouble n) :
    intTag cfg.tags name default = n := by
  rw [intTag, first_tags h]
  simp only [List.head?_cons, Option.bind_some, if_neg (trim_natToString_ne_nil hn),
    floorNonneg?_of_toNat? (toNat?_toNumber_natToString hn), Option.getD_some]

theorem positiveInt_natToString {n : Nat} (h1 : 1 ≤ n) (h : IsDouble n) : positiveInt (natToString n) = some n := by
  simp [positiveInt, toNat?_toNumber_natToString h, Option.filter, h1]

theorem readEnum_tags {α : Type} {name : String} {toTag : α → JsString} {values : List α} {default v : α}
    (h : (name, [[toTag v]]) ∈ cfg.blocks) (hv : readEnum toTag values default (some (toTag v)) = v) :
    readEnum toTag values default (first cfg.tags name) = v := by
  rw [first_tags h]
  exact hv

theorem truthy_of_ne_nil {s : JsString} (h : s ≠ []) : truthy (some s) = some s := by
  simp [truthy, Option.filter, h]

theorem isHex32_ne_nil {s : JsString} (h : isHex32 s = true) : s ≠ [] := by
  rintro rfl
  cases h

theorem readCoordinator_tags (h : Normal url cfg) :
    (readCoordinator cfg.tags).map Prod.fst = cfg.coordinator ∧
      (readCoordinator cfg.tags).map Prod.snd = cfg.coordinatorGen := by
  have hm : ("coordinator", ((truthy cfg.coordinator).map fun pk =>
      [pk, natToString (cfg.coordinatorGen.getD 0)]).toList) ∈ cfg.blocks := by simp [EventConfig.blocks]
  have hfind := findTag_tagsOf (distinctNames_blocks cfg) hm
  rcases h.coordinator with ⟨hc, hg⟩ | ⟨pk, gen, hc, hg, hpk, h1, hdouble⟩
  · rw [hc] at hfind
    have : readCoordinator cfg.tags = none := by
      unfold readCoordinator
      rw [hfind]
      rfl
    rw [this, hc, hg]
    exact ⟨rfl, rfl⟩
  · have ht := truthy_of_ne_nil (isHex32_ne_nil hpk)
    rw [hc, hg, ht] at hfind
    have : readCoordinator cfg.tags = some (pk, gen) := by
      unfold readCoordinator
      rw [hfind]
      simp [ht, hpk, positiveInt_natToString h1 hdouble]
    rw [this, hc, hg]
    exact ⟨rfl, rfl⟩

theorem lang_tags (h : Normal url cfg) : normalizeLang (first cfg.tags "lang") = cfg.lang := by
  have hm : ("lang", if normalizeLang (some cfg.lang) = js "en" then [] else [[normalizeLang (some cfg.lang)]]) ∈
      cfg.blocks := by simp [EventConfig.blocks]
  rw [first_tags hm]
  split
  · next he => rw [h.lang] at he; rw [he]; decide
  · simp [h.lang]

theorem talks_tags : readEnum TalksMode.toTag talksModes .off (first cfg.tags "talks") = cfg.talks := by
  have hm : ("talks", if cfg.talks = .off then [] else [[cfg.talks.toTag]]) ∈ cfg.blocks := by
    simp [EventConfig.blocks]
  rw [first_tags hm]
  cases cfg.talks <;> decide

theorem readChat_tags (h : Normal url cfg) : readChat cfg.tags = cfg.chat := by
  have hm : ("chat", each ((cfg.chat.filter chatBackends.contains).map ChatBackend.toTag)) ∈ cfg.blocks := by
    simp [EventConfig.blocks]
  have hknown : cfg.chat.filter chatBackends.contains = cfg.chat := List.filter_eq_self.2 fun b _ => by
    cases b; decide
  rw [hknown] at hm
  have hne : ∀ v ∈ cfg.chat.map ChatBackend.toTag, v ≠ [] := by
    intro v hv
    obtain ⟨b, -, rfl⟩ := List.mem_map.1 hv
    cases b; decide
  have hread : ∀ b : ChatBackend, chatBackends.find? (fun c => c.toTag == b.toTag) = some b := by
    intro b; cases b; decide
  rw [readChat, all_tags hm hne, List.filterMap_map]
  have : cfg.chat.filterMap ((fun v => chatBackends.find? fun b => b.toTag == v) ∘ ChatBackend.toTag) = cfg.chat := by
    rw [show ((fun v => chatBackends.find? fun b => b.toTag == v) ∘ ChatBackend.toTag) = some from funext hread,
      List.filterMap_some]
  rw [this]
  exact eraseDups_of_nodup h.chat

theorem retentionTag_tags (h : Normal url cfg) : retentionTag cfg.tags = cfg.retentionDays := by
  have hm : ("retention", (cfg.retentionDays.map fun n => [natToString n]).toList) ∈ cfg.blocks := by
    simp [EventConfig.blocks]
  rw [retentionTag, first_tags hm]
  cases hr : cfg.retentionDays with
  | none => rfl
  | some n =>
    obtain ⟨h1, hn⟩ := h.retentionDays n hr
    simp [positiveInt_natToString h1 hn]

theorem parent_tags (h : Normal url cfg) :
    (truthy (first cfg.tags "parent")).filter isValidParentCoordinate = cfg.parent := by
  have hm : ("parent", ((truthy cfg.parent).map fun p => [p]).toList) ∈ cfg.blocks := by simp [EventConfig.blocks]
  rw [first_tags hm]
  cases hp : cfg.parent with
  | none => rfl
  | some p =>
    have hv := h.parent p hp
    have ht := truthy_of_ne_nil (hasKind_ne_nil hv)
    simp [ht, hv]

theorem Normal.children_getD (h : Normal url cfg) : (cfg.children.getD []).Nodup ∧
    (cfg.children.getD []).length ≤ maxChildren ∧ ∀ c ∈ cfg.children.getD [], isValidChildCoordinate c = true := by
  cases hc : cfg.children with
  | none => exact ⟨List.nodup_nil, Nat.zero_le _, nofun⟩
  | some l => exact (h.children l hc).2

theorem children_tags (h : Normal url cfg) :
    ((all cfg.tags "child").filter isValidChildCoordinate).eraseDups.take maxChildren = cfg.children.getD [] := by
  have hm : ("child", each (cfg.children.getD []).eraseDups) ∈ cfg.blocks := by simp [EventConfig.blocks]
  obtain ⟨hnd, hlen, hvalid⟩ := h.children_getD
  rw [eraseDups_of_nodup hnd] at hm
  rw [all_tags hm fun c hc => hasKind_ne_nil (hvalid c hc), List.filter_eq_self.2 hvalid, eraseDups_of_nodup hnd,
    List.take_of_length_le hlen]

theorem coordinate_tags (h : Normal url cfg) :
    (if first cfg.tags "a" = some (makeCoordinate cfg.eidPubkey cfg.d kindCommunity) then some kindCommunity
      else none) = cfg.spaceKind := by
  have hm : ("a", [[cfg.coordinate]]) ∈ cfg.blocks := by simp [EventConfig.blocks]
  rw [first_tags hm]
  rcases h.spaceKind with hk | hk
  · have hne : some cfg.coordinate ≠ some (makeCoordinate cfg.eidPubkey cfg.d kindCommunity) := by
      rw [EventConfig.coordinate, hk]
      exact fun he => makeCoordinate_ne _ _ (Option.some.inj he)
    rw [hk]
    exact if_neg hne
  · rw [hk]
    refine if_pos ?_
    rw [EventConfig.coordinate, hk]
    rfl

/-- **A normal config is read back from its tags**, field by field. -/
theorem readFields_tags (h : Normal url cfg) : readFields url cfg.eidPubkey cfg.d cfg.inbox cfg.tags = cfg := by
  have hrelays : urlValues url cfg.tags "relay" "wss:" = cfg.relays :=
    urlValues_tags (by simp [EventConfig.blocks]) fun r hr => (h.relays r hr).1
  have hchat : urlValues url cfg.tags "chat_relay" "wss:" = cfg.chatRelays :=
    urlValues_tags (by simp [EventConfig.blocks]) h.chatRelays
  have hblossom : urlValues url cfg.tags "blossom" "https:" = cfg.blossom :=
    urlValues_tags (by simp [EventConfig.blocks]) h.blossom
  -- no relay of the config is an interop relay, so the split moves none
  have hkept : cfg.relays.filter (fun r => !isChatInteropRelay url r) = cfg.relays :=
    List.filter_eq_self.2 fun r hr => by simp [(h.relays r hr).2]
  have hmoved : cfg.relays.filter (isChatInteropRelay url) = [] :=
    List.filter_eq_nil_iff.2 fun r hr => by simp [(h.relays r hr).2]
  have hdedup : (cfg.chatRelays ++ []).eraseDups = cfg.chatRelays := by
    rw [List.append_nil, eraseDups_of_nodup h.chatRelays_nodup]
  have hvideo : intTag cfg.tags "max_video_sec" 90 = cfg.maxVideoSec :=
    intTag_tags (by simp [EventConfig.blocks]) h.maxVideoSec
  have htalk : intTag cfg.tags "max_talk_sec" 900 = cfg.maxTalkSec :=
    intTag_tags (by simp [EventConfig.blocks]) h.maxTalkSec
  have heck : intTag cfg.tags "eck" 1 = cfg.eck := intTag_tags (by simp [EventConfig.blocks]) h.eck.2
  have hcontext : intTag cfg.tags "nostr_context" 0 = cfg.nostrContext :=
    intTag_tags (by simp [EventConfig.blocks]) h.nostrContext
  have hvisibility : readEnum MatchVisibility.toTag visibilities .pair (first cfg.tags "match_visibility") =
      cfg.matchVisibility :=
    readEnum_tags (by simp [EventConfig.blocks]) (by cases cfg.matchVisibility <;> decide)
  have happroval : readEnum Approval.toTag approvals .manual (first cfg.tags "approval") = cfg.approval :=
    readEnum_tags (by simp [EventConfig.blocks]) (by cases cfg.approval <;> decide)
  have hmatching : (if first cfg.tags "matching" = some (js "on") then Matching.on else .off) = cfg.matching := by
    have hm : ("matching", [[cfg.matching.toTag]]) ∈ cfg.blocks := by simp [EventConfig.blocks]
    rw [first_tags hm]
    cases cfg.matching <;> decide
  have hchildren : (if cfg.children.getD [] = [] then none else some (cfg.children.getD [])) = cfg.children := by
    cases hc : cfg.children with
    | none => rfl
    | some l => exact if_neg (h.children l hc).1
  obtain ⟨hcoordinator, hgen⟩ := readCoordinator_tags h
  simp only [readFields, hcoordinator, hgen, hrelays, hkept, hmoved, hchat, hdedup, hblossom, hvideo, htalk,
    hmatching, hvisibility, happroval, heck, max_eq_right h.eck.1, hcontext, lang_tags h, talks_tags, readChat_tags h,
    retentionTag_tags h, parent_tags h, children_tags h, hchildren, coordinate_tags h]

theorem readEventVersionTag_tags : readEventVersionTag cfg.tags = some (protocolVersion : Int) := by
  have hm : ("v", [[natToString protocolVersion]]) ∈ cfg.blocks := by simp [EventConfig.blocks]
  have h2 : (toNumber (natToString protocolVersion)).toInt? = some (protocolVersion : Int) := by decide +kernel
  rw [readEventVersionTag, first_tags hm]
  simp only [List.head?_cons, Option.bind_some, h2]

theorem parse_tags (h : Normal url cfg) : parseEventConfig url cfg.eidPubkey cfg.tags = .ok cfg := by
  have hd : truthy (first cfg.tags "d") = some cfg.d := by
    have hm : ("d", [[cfg.d]]) ∈ cfg.blocks := by simp [EventConfig.blocks]
    rw [first_tags hm]
    exact truthy_of_ne_nil h.d
  have hi : (truthy (first cfg.tags "inbox")).filter isHex32 = some cfg.inbox := by
    have hm : ("inbox", [[cfg.inbox]]) ∈ cfg.blocks := by simp [EventConfig.blocks]
    rw [first_tags hm]
    have ht := truthy_of_ne_nil (isHex32_ne_nil h.inbox)
    simp [ht, h.inbox]
  unfold parseEventConfig
  rw [hd, hi]
  simp only [readEventVersionTag_tags, if_true, readFields_tags h]

/-- A normal config passes every check of the builder. -/
theorem buildCheck_of_normal (h : Normal url cfg) : buildCheck cfg = none := by
  have hkind : cfg.spaceKind.any (fun k => !spaceKinds.contains k) = false := by
    rcases h.spaceKind with hk | hk <;> rw [hk] <;> decide
  have hgen : ((truthy cfg.coordinator).isSome && cfg.coordinatorGen.getD 0 < 1) = false := by
    rcases h.coordinator with ⟨hc, hg⟩ | ⟨pk, gen, hc, hg, -, h1, -⟩
    · rw [hc]; rfl
    · rw [hg, Bool.and_eq_false_iff]
      exact .inr (decide_eq_false (not_lt.2 h1))
  have hretention : cfg.retentionDays.any (· < 1) = false := by
    cases hr : cfg.retentionDays with
    | none => rfl
    | some n => exact decide_eq_false (not_lt.2 (h.retentionDays n hr).1)
  have hparent : (truthy cfg.parent).any (fun p => !isValidParentCoordinate p) = false := by
    cases hp : cfg.parent with
    | none => rfl
    | some p =>
      have hv := h.parent p hp
      rw [truthy_of_ne_nil (hasKind_ne_nil hv)]
      simp [hv]
  obtain ⟨hnd, hlen, hvalid⟩ := h.children_getD
  have hany : (cfg.children.getD []).any (fun c => !isValidChildCoordinate c) = false :=
    List.any_eq_false.2 fun c hc => by simp [hvalid c hc]
  simp only [buildCheck, hkind, hgen, hretention, hparent, eraseDups_of_nodup hnd, hany]
  simp [hlen]

end Blocks

/-- **Re-publishing a parsed config never changes it**: what the parser returns
is built without an error, and the built tags parse to it again. -/
theorem parseEventConfig_buildEventConfig {url : JsString → Option Url} {eidPubkey : JsString} {tags : List Tag}
    {cfg : EventConfig} (h : parseEventConfig url eidPubkey tags = .ok cfg) :
    ∃ built, buildEventConfig cfg = .ok built ∧ parseEventConfig url eidPubkey built.tags = .ok cfg := by
  obtain ⟨hn, rfl⟩ := parse_normal h
  refine ⟨{ kind := kindEventConfig, tags := cfg.tags, content := [] }, ?_, parse_tags hn⟩
  simp only [buildEventConfig, buildCheck_of_normal hn]

/-- A relay URL as the parser splits it. -/
def relayUrl (s : JsString) : Option Url :=
  if s.take 6 = js "wss://" then some { protocol := js "wss:", hostname := s.drop 6 } else none

/-- A community's config from before `chat_relay`, with a fraction of a second and a full locale. -/
def oldTags : List Tag :=
  [[js "d", js "meetups"], [js "inbox", List.replicate 64 (codeUnit 97)], [js "v", js "2"],
    [js "a", makeCoordinate (List.replicate 64 (codeUnit 98)) (js "meetups") kindCommunity],
    [js "coordinator", List.replicate 64 (codeUnit 99), js "3"], [js "relay", js "wss://relay.example"],
    [js "relay", js "wss://relay.eu.whitenoise.chat"], [js "max_video_sec", js "12.5"], [js "lang", js " DE-at "],
    [js "chat", js "marmot"], [js "retention", js "30"]]

def oldConfig : EventConfig where
  d := js "meetups"
  eidPubkey := List.replicate 64 (codeUnit 98)
  inbox := List.replicate 64 (codeUnit 97)
  coordinator := some (List.replicate 64 (codeUnit 99))
  coordinatorGen := some 3
  relays := [js "wss://relay.example"]
  chatRelays := [js "wss://relay.eu.whitenoise.chat"]
  blossom := []
  maxVideoSec := 12
  maxTalkSec := 900
  matching := .off
  matchVisibility := .pair
  approval := .manual
  eck := 1
  nostrContext := 0
  lang := js "de"
  talks := .off
  chat := [.marmot]
  retentionDays := some 30
  spaceKind := some 31612

theorem parseEventConfig_buildEventConfig_oldConfig : ∃ built, buildEventConfig oldConfig = .ok built ∧
    parseEventConfig relayUrl oldConfig.eidPubkey built.tags = .ok oldConfig := by
  have h : parseEventConfig relayUrl oldConfig.eidPubkey oldTags = .ok oldConfig := by decide +kernel
  exact parseEventConfig_buildEventConfig h

end Nostrautica.Config
