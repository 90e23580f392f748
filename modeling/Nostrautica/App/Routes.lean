/-
The hash router, `app/src/lib/router/routes.ts`: which routes are read back from their hash, and
which secrets the hash of an unknown route keeps.
-/
import Nostrautica.Js.SearchParams

namespace Nostrautica.Routes

open Js SearchParams
open Lines (splitOn_append not_mem_of_mem_splitOn)

inductive Route
  | home
  | login (nsec : Option JsString)
  | create
  | me
  | settings
  | event (naddr : JsString)
  | join (naddr : JsString) (code : Option JsString)
  | record (naddr : JsString) (talk : Bool)
  | attendees (naddr : JsString)
  | attendee (naddr npub : JsString)
  | report (naddr : JsString)
  | chat (naddr : JsString)
  | talks (naddr : JsString)
  | talk (naddr d : JsString)
  | myProfile (naddr : JsString)
  | admin (naddr : JsString)
  | eventSettings (naddr : JsString)
  | posts (naddr : JsString)
  | post (naddr d : JsString)
  | eventMore (naddr : JsString)
  | dm
  | dmPeer (npub : JsString)
  | notFound (hash : JsString)
  deriving DecidableEq

/-- The text before the first `?`. -/
def pathOf (body : JsString) : JsString := body.takeWhile (· ≠ 63)

/-- The text after the first `?`, if there is one. -/
def queryOf (body : JsString) : JsString := (body.dropWhile (· ≠ 63)).drop 1

/-- `split(body).segments`. -/
def segmentsOf (body : JsString) : List JsString := ((pathOf body).splitOn 47).filter (· ≠ [])

scoped instance lawfulBEq_codeUnit : LawfulBEq CodeUnit := inferInstance

/-- `FRAGMENT_CREDENTIALS`. -/
def fragmentCredentials : List JsString := [js "nsec", js "code"]

def stripFragmentCredentials (hash : JsString) : JsString :=
  if 63 ∉ hash then hash
  else
    let params := parse (queryOf hash)
    if !fragmentCredentials.any (has params) then hash
    else
      let rest := SearchParams.toString (fragmentCredentials.foldl delete params)
      if rest ≠ [] then pathOf hash ++ 63 :: rest else pathOf hash

/-- `body.startsWith(mark) ? body.slice(1) : body`. -/
def withoutHead (mark : CodeUnit) (body : JsString) : JsString := if body.head? = some mark then body.drop 1 else body

/-- A leading `#` and then a leading `/` are tolerated. -/
def bodyOf (hash : JsString) : JsString := withoutHead 47 (withoutHead 35 hash)

/-- The routes under `e`. -/
def eventRoute (hash naddr : JsString) (sub : List JsString) (query : List (JsString × JsString)) : Route :=
  match sub with
  | [] => .event naddr
  | name :: more =>
    if name = js "join" then .join naddr (get query (js "code"))
    else if name = js "record" then .record naddr (get query (js "talk") = some (js "1"))
    else if name = js "matches" then .attendees naddr
    else if name = js "report" then .report naddr
    else if name = js "chat" then .chat naddr
    else if name = js "talks" then
      match more with
      | [] => .talks naddr
      | d :: _ => .talk naddr d
    else if name = js "profile" then .myProfile naddr
    else if name = js "more" then .eventMore naddr
    else if name = js "admin" then .admin naddr
    else if name = js "settings" then .eventSettings naddr
    else if name = js "posts" then
      match more with
      | [] => .posts naddr
      | d :: _ => .post naddr d
    else if name = js "attendees" then
      match more with
      | [] => .attendees naddr
      | npub :: _ => .attendee naddr npub
    else .notFound hash

def routeOf (hash : JsString) (segments : List JsString) (query : List (JsString × JsString)) : Route :=
  match segments with
  | [] => .home
  | name :: more =>
    if name = js "login" then .login (get query (js "nsec"))
    else if name = js "create" then .create
    else if name = js "me" then .me
    else if name = js "settings" then .settings
    else if name = js "dm" then
      match more with
      | [] => .dm
      | npub :: _ => .dmPeer npub
    else if name = js "e" then
      match more with
      | [] => .notFound hash
      | naddr :: sub => eventRoute hash naddr sub query
    else .notFound hash

def parseRawHash (hash : JsString) : Route := routeOf hash (segmentsOf (bodyOf hash)) (parse (queryOf (bodyOf hash)))

def parseHash (hash : JsString) : Route :=
  match parseRawHash hash with
  | .notFound kept => .notFound (stripFragmentCredentials kept)
  | route => route

def eventHash (naddr sub : JsString) : JsString := js "#/e/" ++ (naddr ++ sub)

def buildHash : Route → JsString
  | .home => js "#/"
  | .login nsec => match nsec with
    | some nsec => if nsec ≠ [] then js "#/login?nsec=" ++ nsec else js "#/login"
    | none => js "#/login"
  | .create => js "#/create"
  | .me => js "#/me"
  | .settings => js "#/settings"
  | .event naddr => eventHash naddr []
  | .join naddr code => match code with
    | some code => if code ≠ [] then eventHash naddr (js "/join?code=" ++ code) else eventHash naddr (js "/join")
    | none => eventHash naddr (js "/join")
  | .record naddr talk => if talk then eventHash naddr (js "/record?talk=1") else eventHash naddr (js "/record")
  | .attendees naddr => eventHash naddr (js "/attendees")
  | .attendee naddr npub => eventHash naddr (js "/attendees/" ++ npub)
  | .report naddr => eventHash naddr (js "/report")
  | .chat naddr => eventHash naddr (js "/chat")
  | .talks naddr => eventHash naddr (js "/talks")
  | .talk naddr d => eventHash naddr (js "/talks/" ++ d)
  | .myProfile naddr => eventHash naddr (js "/profile")
  | .eventMore naddr => eventHash naddr (js "/more")
  | .admin naddr => eventHash naddr (js "/admin")
  | .eventSettings naddr => eventHash naddr (js "/settings")
  | .posts naddr => eventHash naddr (js "/posts")
  | .post naddr d => eventHash naddr (js "/posts/" ++ d)
  | .dm => js "#/dm"
  | .dmPeer npub => js "#/dm/" ++ npub
  | .notFound hash => hash

/-! ## Paths -/

variable {s t body naddr d : JsString}

theorem pathOf_append (h : 63 ∉ s) : pathOf (s ++ t) = s ++ pathOf t := by
  unfold pathOf
  exact List.takeWhile_append_of_pos fun c hc => decide_eq_true fun he => h (he ▸ hc)

theorem pathOf_cut (h : 63 ∉ s) (t : JsString) : pathOf (s ++ 63 :: t) = s ∧ queryOf (s ++ 63 :: t) = t := by
  have hall : ∀ c ∈ s, decide (c ≠ 63) = true := fun c hc => decide_eq_true fun he => h (he ▸ hc)
  unfold pathOf queryOf
  rw [List.takeWhile_append_of_pos hall, List.dropWhile_append_of_pos hall]
  simp

theorem pathOf_plain (h : 63 ∉ s) : pathOf s = s ∧ queryOf s = [] := by
  have hall : ∀ c ∈ s, decide (c ≠ 63) = true := fun c hc => decide_eq_true fun he => h (he ▸ hc)
  unfold pathOf queryOf
  rw [List.takeWhile_eq_self_iff.mpr hall, List.dropWhile_eq_nil_iff.mpr hall]
  exact ⟨rfl, rfl⟩

theorem mem_of_mem_splitOn {sep c : CodeUnit} (h : t ∈ s.splitOn sep) (hc : c ∈ t) : c ∈ s := by
  induction s generalizing t with
  | nil =>
    rw [List.splitOn_nil, List.mem_singleton] at h
    rw [h] at hc
    exact hc
  | cons d s ih =>
    rw [List.splitOn_cons_eq_if_modifyHead] at h
    split at h
    · cases List.mem_cons.mp h with
      | inl he =>
        rw [he] at hc
        exact (List.not_mem_nil hc).elim
      | inr h => exact List.mem_cons_of_mem d (ih h hc)
    · obtain ⟨u, us, hu⟩ := List.exists_cons_of_ne_nil (List.splitOn_ne_nil sep s)
      rw [hu, List.modifyHead_cons] at h
      cases List.mem_cons.mp h with
      | inl he =>
        rw [he] at hc
        cases List.mem_cons.mp hc with
        | inl he =>
          rw [he]
          exact List.mem_cons_self
        | inr hc => exact List.mem_cons_of_mem d (ih (hu ▸ List.mem_cons_self) hc)
      | inr h => exact List.mem_cons_of_mem d (ih (hu ▸ List.mem_cons_of_mem u h) hc)

/-- A segment has neither of the separators. -/
theorem segment_plain (h : s ∈ segmentsOf body) : 47 ∉ s ∧ 63 ∉ s ∧ s ≠ [] := by
  obtain ⟨hmem, hne⟩ := List.mem_filter.mp h
  refine ⟨not_mem_of_mem_splitOn hmem, fun hq => ?_, of_decide_eq_true hne⟩
  have hpath : (63 : CodeUnit) ∈ pathOf body := mem_of_mem_splitOn hmem hq
  exact absurd (List.mem_takeWhile_imp hpath) (by decide)

/-! ## Round trips -/

/-- A text of letters and digits, as bech32 ones are. -/
def Bech32Text (s : JsString) : Prop := s ≠ [] ∧ ∀ c ∈ s, Alphanumeric c

theorem Bech32Text.not_mem (h : Bech32Text s) : 63 ∉ s ∧ 47 ∉ s ∧ 38 ∉ s := by
  have hone : ∀ c : CodeUnit, ¬Alphanumeric c → c ∉ s := fun c hc hm => hc (h.2 c hm)
  unfold Alphanumeric at hone
  exact ⟨hone 63 (by decide), hone 47 (by decide), hone 38 (by decide)⟩

/-- Segments joined by `/`, after a `#/`. -/
def joined (segments : List JsString) : JsString := [(47 : CodeUnit)].intercalate segments

theorem segmentsOf_joined {segments : List JsString} (hne : segments ≠ []) (h : ∀ x ∈ segments, 47 ∉ x ∧ 63 ∉ x ∧ x ≠ []) (t : JsString) :
    segmentsOf (joined segments) = segments ∧ queryOf (joined segments) = [] ∧
    segmentsOf (joined segments ++ 63 :: t) = segments ∧ queryOf (joined segments ++ 63 :: t) = t := by
  have hmark : (63 : CodeUnit) ∉ joined segments := by
    unfold joined
    intro hm
    clear hne
    induction segments with
    | nil => exact (List.not_mem_nil hm).elim
    | cons x segments ih =>
      cases segments with
      | nil =>
        rw [List.intercalate_singleton] at hm
        exact (h x List.mem_cons_self).2.1 hm
      | cons y segments =>
        rw [List.intercalate_cons_cons, List.mem_append, List.mem_append] at hm
        rcases hm with (hm | hm) | hm
        · exact (h x List.mem_cons_self).2.1 hm
        · exact absurd (List.mem_singleton.mp hm) (by decide)
        · exact ih (fun z hz => h z (List.mem_cons_of_mem x hz)) hm
  have hsplit : ((joined segments).splitOn 47).filter (· ≠ []) = segments := by
    unfold joined
    rw [List.splitOn_intercalate _ (fun x hx => (h x hx).1) hne, List.filter_eq_self]
    exact fun x hx => decide_eq_true (h x hx).2.2
  obtain ⟨hp, hq⟩ := pathOf_plain hmark
  obtain ⟨hp', hq'⟩ := pathOf_cut hmark t
  unfold segmentsOf
  rw [hp, hp', hq, hq']
  exact ⟨hsplit, rfl, hsplit, rfl⟩

theorem parse_nil : parse [] = [] := by decide

/-- A query of one parameter. -/
theorem parse_one {c : CodeUnit} {name value : JsString} (hn : ∀ d ∈ c :: name, Alphanumeric d) (hv : Bech32Text value) :
    parse (c :: name ++ 61 :: value) = [(c :: name, value)] := by
  have hplain : ∀ (d : CodeUnit), ¬Alphanumeric d → d ∉ c :: name := fun d hd hm => hd (hn d hm)
  have h61 : (61 : CodeUnit) ∉ c :: name := hplain 61 (by unfold Alphanumeric; decide)
  have h38 : (38 : CodeUnit) ∉ c :: name ++ 61 :: value := by
    intro h
    rcases List.mem_append.mp h with h | h
    · exact hplain 38 (by unfold Alphanumeric; decide) h
    · rcases List.mem_cons.mp h with h | h
      · exact absurd h (by decide)
      · exact hv.not_mem.2.2 h
  have hmark : withoutMark (c :: name ++ 61 :: value) = c :: name ++ 61 :: value := by
    have hc : c ≠ 63 := fun he => hplain 63 (by unfold Alphanumeric; decide) (by rw [he]; exact List.mem_cons_self)
    exact if_neg hc
  have hall : ∀ d ∈ c :: name, decide (d ≠ 61) = true := fun d hd => decide_eq_true fun he => h61 (he ▸ hd)
  unfold parse pieces
  rw [hmark, List.splitOn_eq_singleton h38, List.filter_cons_of_pos (by simp), List.filter_nil, List.map_singleton]
  have hpair : pairOf (c :: name ++ 61 :: value) = (c :: name, value) := by
    unfold pairOf
    rw [List.takeWhile_append_of_pos hall, List.dropWhile_append_of_pos hall]
    simp [decode_plain hn, decode_plain hv.2]
  rw [hpair]

theorem bodyOf_slash (x : JsString) : bodyOf (js "#/" ++ x) = x := rfl

theorem parseRawHash_joined {segments : List JsString} (hne : segments ≠ []) (h : ∀ x ∈ segments, 47 ∉ x ∧ 63 ∉ x ∧ x ≠ []) :
    parseRawHash (js "#/" ++ joined segments) = routeOf (js "#/" ++ joined segments) segments [] := by
  obtain ⟨h1, h2, -, -⟩ := segmentsOf_joined hne h []
  rw [parseRawHash, bodyOf_slash, h1, h2, parse_nil]

theorem parseRawHash_query {segments : List JsString} (hne : segments ≠ []) (h : ∀ x ∈ segments, 47 ∉ x ∧ 63 ∉ x ∧ x ≠ []) (t : JsString) :
    parseRawHash (js "#/" ++ (joined segments ++ 63 :: t)) = routeOf (js "#/" ++ (joined segments ++ 63 :: t)) segments (parse t) := by
  obtain ⟨-, -, h3, h4⟩ := segmentsOf_joined hne h t
  rw [parseRawHash, bodyOf_slash, h3, h4]

/-- The segments of the paths that `buildHash` writes. -/
theorem eventHash_joined (naddr sub d : JsString) : eventHash naddr [] = js "#/" ++ joined [js "e", naddr] ∧
    eventHash naddr (47 :: sub) = js "#/" ++ joined [js "e", naddr, sub] ∧
    eventHash naddr (47 :: (sub ++ 47 :: d)) = js "#/" ++ joined [js "e", naddr, sub, d] := by
  unfold joined eventHash
  simp only [List.intercalate_cons_cons, List.intercalate_singleton, List.append_assoc, List.append_nil]
  exact ⟨rfl, rfl, rfl⟩

/-- Which fields of a route are bech32 texts, and which identifiers are there. -/
def WellNamed : Route → Prop
  | .home | .create | .me | .settings | .dm | .notFound _ => True
  | .login nsec => ∀ x ∈ nsec, Bech32Text x
  | .join naddr code => Bech32Text naddr ∧ ∀ x ∈ code, Bech32Text x
  | .event naddr | .record naddr _ | .attendees naddr | .report naddr | .chat naddr | .talks naddr | .myProfile naddr | .admin naddr
  | .eventSettings naddr | .posts naddr | .eventMore naddr => Bech32Text naddr
  | .attendee naddr npub => Bech32Text naddr ∧ Bech32Text npub
  | .talk naddr d | .post naddr d => Bech32Text naddr ∧ d ≠ []
  | .dmPeer npub => Bech32Text npub

/-! ## Unknown paths -/

def topNames : List JsString := [js "login", js "create", js "me", js "settings", js "dm"]

def subNames : List JsString :=
  [js "join", js "record", js "matches", js "report", js "chat", js "talks", js "profile", js "more", js "admin", js "settings", js "posts", js "attendees"]

/-- No route has this path. -/
def isUnknown : List JsString → Bool
  | [] => false
  | name :: more =>
    name ∉ topNames && (name ≠ js "e" || match more with
      | [] => true
      | [_] => false
      | _ :: sub :: _ => sub ∉ subNames)

variable {hash kept : JsString} {segments : List JsString} {query : List (JsString × JsString)}

theorem notFound_iff : Route.notFound hash = .notFound kept ↔ kept = hash := by
  constructor
  · exact fun h => (Route.notFound.inj h).symm
  · intro h
    rw [h]

theorem eventRoute_notFound {naddr : JsString} {sub : List JsString} :
    eventRoute hash naddr sub query = .notFound kept ↔ kept = hash ∧ ∃ name more, sub = name :: more ∧ name ∉ subNames := by
  cases sub with
  | nil => simp [eventRoute]
  | cons name more =>
    have hsub : (∃ n m, name :: more = n :: m ∧ n ∉ subNames) ↔ name ∉ subNames := by
      constructor
      · intro ⟨n, m, he, hn⟩
        rw [(List.cons.inj he).1]
        exact hn
      · exact fun hn => ⟨name, more, rfl, hn⟩
    rw [hsub]
    have hknown : ∀ {r : Route}, (∀ k, r ≠ .notFound k) → name ∈ subNames → (r = .notFound kept ↔ kept = hash ∧ name ∉ subNames) :=
      fun hr hname => iff_of_false (hr kept) fun h => h.2 hname
    unfold eventRoute
    dsimp only
    by_cases h1 : name = js "join"
    · rw [if_pos h1]
      exact hknown (fun k h => by cases h) (by rw [h1]; decide)
    by_cases h2 : name = js "record"
    · rw [if_neg h1, if_pos h2]
      exact hknown (fun k h => by cases h) (by rw [h2]; decide)
    by_cases h3 : name = js "matches"
    · rw [if_neg h1, if_neg h2, if_pos h3]
      exact hknown (fun k h => by cases h) (by rw [h3]; decide)
    by_cases h4 : name = js "report"
    · rw [if_neg h1, if_neg h2, if_neg h3, if_pos h4]
      exact hknown (fun k h => by cases h) (by rw [h4]; decide)
    by_cases h5 : name = js "chat"
    · rw [if_neg h1, if_neg h2, if_neg h3, if_neg h4, if_pos h5]
      exact hknown (fun k h => by cases h) (by rw [h5]; decide)
    by_cases h6 : name = js "talks"
    · rw [if_neg h1, if_neg h2, if_neg h3, if_neg h4, if_neg h5, if_pos h6]
      cases more with
      | nil => exact hknown (fun k h => by cases h) (by rw [h6]; decide)
      | cons d more => exact hknown (fun k h => by cases h) (by rw [h6]; decide)
    by_cases h7 : name = js "profile"
    · rw [if_neg h1, if_neg h2, if_neg h3, if_neg h4, if_neg h5, if_neg h6, if_pos h7]
      exact hknown (fun k h => by cases h) (by rw [h7]; decide)
    by_cases h8 : name = js "more"
    · rw [if_neg h1, if_neg h2, if_neg h3, if_neg h4, if_neg h5, if_neg h6, if_neg h7, if_pos h8]
      exact hknown (fun k h => by cases h) (by rw [h8]; decide)
    by_cases h9 : name = js "admin"
    · rw [if_neg h1, if_neg h2, if_neg h3, if_neg h4, if_neg h5, if_neg h6, if_neg h7, if_neg h8, if_pos h9]
      exact hknown (fun k h => by cases h) (by rw [h9]; decide)
    by_cases h10 : name = js "settings"
    · rw [if_neg h1, if_neg h2, if_neg h3, if_neg h4, if_neg h5, if_neg h6, if_neg h7, if_neg h8, if_neg h9, if_pos h10]
      exact hknown (fun k h => by cases h) (by rw [h10]; decide)
    by_cases h11 : name = js "posts"
    · rw [if_neg h1, if_neg h2, if_neg h3, if_neg h4, if_neg h5, if_neg h6, if_neg h7, if_neg h8, if_neg h9, if_neg h10, if_pos h11]
      cases more with
      | nil => exact hknown (fun k h => by cases h) (by rw [h11]; decide)
      | cons d more => exact hknown (fun k h => by cases h) (by rw [h11]; decide)
    by_cases h12 : name = js "attendees"
    · rw [if_neg h1, if_neg h2, if_neg h3, if_neg h4, if_neg h5, if_neg h6, if_neg h7, if_neg h8, if_neg h9, if_neg h10, if_neg h11, if_pos h12]
      cases more with
      | nil => exact hknown (fun k h => by cases h) (by rw [h12]; decide)
      | cons d more => exact hknown (fun k h => by cases h) (by rw [h12]; decide)
    rw [if_neg h1, if_neg h2, if_neg h3, if_neg h4, if_neg h5, if_neg h6, if_neg h7, if_neg h8, if_neg h9, if_neg h10, if_neg h11, if_neg h12, notFound_iff]
    refine ⟨fun h => ⟨h, ?_⟩, And.left⟩
    simp only [subNames, List.mem_cons, List.not_mem_nil, or_false, not_or]
    exact ⟨h1, h2, h3, h4, h5, h6, h7, h8, h9, h10, h11, h12⟩

/-- The unknown paths are those that no route is read from; the route keeps the hash. -/
theorem routeOf_notFound : routeOf hash segments query = .notFound kept ↔ kept = hash ∧ isUnknown segments = true := by
  cases segments with
  | nil => simp [routeOf, isUnknown]
  | cons name more =>
    have hknown : ∀ {r : Route}, (∀ k, r ≠ .notFound k) → name ∈ topNames → (r = .notFound kept ↔ kept = hash ∧ isUnknown (name :: more) = true) := by
      intro r hr hname
      refine iff_of_false (hr kept) fun h => ?_
      have htop := (Bool.and_eq_true_iff.mp h.2).1
      exact of_decide_eq_true htop hname
    unfold routeOf
    dsimp only
    by_cases h1 : name = js "login"
    · rw [if_pos h1]
      exact hknown (fun k h => by cases h) (by rw [h1]; decide)
    by_cases h2 : name = js "create"
    · rw [if_neg h1, if_pos h2]
      exact hknown (fun k h => by cases h) (by rw [h2]; decide)
    by_cases h3 : name = js "me"
    · rw [if_neg h1, if_neg h2, if_pos h3]
      exact hknown (fun k h => by cases h) (by rw [h3]; decide)
    by_cases h4 : name = js "settings"
    · rw [if_neg h1, if_neg h2, if_neg h3, if_pos h4]
      exact hknown (fun k h => by cases h) (by rw [h4]; decide)
    by_cases h5 : name = js "dm"
    · rw [if_neg h1, if_neg h2, if_neg h3, if_neg h4, if_pos h5]
      cases more with
      | nil => exact hknown (fun k h => by cases h) (by rw [h5]; decide)
      | cons npub more => exact hknown (fun k h => by cases h) (by rw [h5]; decide)
    have htop : name ∉ topNames := by
      simp only [topNames, List.mem_cons, List.not_mem_nil, or_false, not_or]
      exact ⟨h1, h2, h3, h4, h5⟩
    by_cases h6 : name = js "e"
    · rw [if_neg h1, if_neg h2, if_neg h3, if_neg h4, if_neg h5, if_pos h6]
      cases more with
      | nil =>
        rw [notFound_iff]
        simp [isUnknown, htop]
      | cons naddr sub =>
        rw [eventRoute_notFound]
        cases sub with
        | nil => simp [isUnknown, h6]
        | cons sub more =>
          have he : js "e" ∉ topNames := by decide
          simp [isUnknown, he, h6]
    · rw [if_neg h1, if_neg h2, if_neg h3, if_neg h4, if_neg h5, if_neg h6, notFound_iff]
      simp [isUnknown, htop, h6]

/-! ## What is read back -/

theorem parseHash_eq {r : Route} (h : parseRawHash hash = r) (hr : ∀ k, r ≠ .notFound k) : parseHash hash = r := by
  unfold parseHash
  rw [h]
  cases r with
  | notFound k => exact absurd rfl (hr k)
  | _ => rfl

theorem parseRawHash_eq {r : Route} (h : parseHash hash = r) (hr : ∀ k, r ≠ .notFound k) : parseRawHash hash = r := by
  unfold parseHash at h
  split at h
  · exact absurd h.symm (hr _)
  · exact h

theorem routeOf_event (hash naddr : JsString) (sub : List JsString) (query : List (JsString × JsString)) :
    routeOf hash (js "e" :: naddr :: sub) query = eventRoute hash naddr sub query := rfl

theorem plain_segments {naddr sub : JsString} {more : List JsString} (hn : Bech32Text naddr) (hs : 47 ∉ sub ∧ 63 ∉ sub ∧ sub ≠ [])
    (hm : ∀ x ∈ more, 47 ∉ x ∧ 63 ∉ x ∧ x ≠ []) : ∀ x ∈ js "e" :: naddr :: sub :: more, 47 ∉ x ∧ 63 ∉ x ∧ x ≠ [] := by
  intro x hx
  simp only [List.mem_cons] at hx
  rcases hx with rfl | rfl | rfl | hx
  · decide
  · exact ⟨hn.not_mem.2.1, hn.not_mem.1, hn.1⟩
  · exact hs
  · exact hm x hx

/-- Under an event: its own page, a page of a name, one with an identifier, and one with a query. -/
theorem parse_event {naddr sub : JsString} (hn : Bech32Text naddr) (hs : 47 ∉ sub ∧ 63 ∉ sub ∧ sub ≠ []) :
    parseRawHash (eventHash naddr (47 :: sub)) = eventRoute (eventHash naddr (47 :: sub)) naddr [sub] [] ∧
    (∀ d, 47 ∉ d ∧ 63 ∉ d ∧ d ≠ [] → parseRawHash (eventHash naddr (47 :: (sub ++ 47 :: d))) =
      eventRoute (eventHash naddr (47 :: (sub ++ 47 :: d))) naddr [sub, d] []) ∧
    ∀ q, parseRawHash (eventHash naddr (47 :: (sub ++ 63 :: q))) = eventRoute (eventHash naddr (47 :: (sub ++ 63 :: q))) naddr [sub] (parse q) := by
  have hplain := plain_segments hn hs fun x (hx : x ∈ []) => (List.not_mem_nil hx).elim
  refine ⟨?_, fun d hd => ?_, fun q => ?_⟩
  · rw [(eventHash_joined naddr sub []).2.1, parseRawHash_joined (List.cons_ne_nil _ _) hplain, routeOf_event]
  · rw [(eventHash_joined naddr sub d).2.2, parseRawHash_joined (List.cons_ne_nil _ _) (plain_segments hn hs fun x hx => by
      rw [List.mem_singleton.mp hx]
      exact hd), routeOf_event]
  · have hform : eventHash naddr (47 :: (sub ++ 63 :: q)) = js "#/" ++ (joined [js "e", naddr, sub] ++ 63 :: q) := by
      have hj := (eventHash_joined naddr sub []).2.1
      unfold eventHash at hj ⊢
      rw [← List.append_assoc (js "#/"), ← hj]
      simp only [List.append_assoc, List.cons_append]
    rw [hform, parseRawHash_query (List.cons_ne_nil _ _) hplain, routeOf_event]

/-- The identifier that a route has of an event. -/
def identifier : Route → Option JsString
  | .talk _ d | .post _ d => some d
  | _ => none

/-- The identifier of a route is a segment. -/
theorem mem_of_eventRoute {naddr n : JsString} {sub : List JsString} (h : eventRoute hash naddr sub query = .talk n d ∨ eventRoute hash naddr sub query = .post n d) :
    d ∈ sub := by
  cases sub with
  | nil =>
    rcases h with h | h
    · cases h
    · cases h
  | cons name more =>
    unfold eventRoute at h
    dsimp only at h
    have hmore : ∀ {r : Route} {f : JsString → Route}, (match more with
        | [] => r
        | e :: _ => f e) = .talk n d ∨ (match more with
        | [] => r
        | e :: _ => f e) = .post n d → (r ≠ .talk n d ∧ r ≠ .post n d) → (∀ e, f e = .talk n d ∨ f e = .post n d → e = d) → d ∈ name :: more := by
      intro r f hr hno hf
      cases more with
      | nil => exact (hr.elim hno.1 hno.2).elim
      | cons e more =>
        rw [hf e hr]
        exact List.mem_cons_of_mem _ List.mem_cons_self
    by_cases h1 : name = js "talks"
    · rw [h1] at h
      exact hmore h ⟨fun he => (by cases he), fun he => (by cases he)⟩ fun e he => by
        rcases he with he | he
        · exact (Route.talk.inj he).2
        · cases he
    · by_cases h2 : name = js "posts"
      · rw [h2] at h
        exact hmore h ⟨fun he => (by cases he), fun he => (by cases he)⟩ fun e he => by
          rcases he with he | he
          · cases he
          · exact (Route.post.inj he).2
      · exfalso
        have hnone : ∀ {r : Route}, identifier r = none → ¬(r = .talk n d ∨ r = .post n d) := by
          intro r hr he
          rcases he with rfl | rfl
          · cases hr
          · cases hr
        by_cases h3 : name = js "join"
        · rw [if_pos h3] at h
          exact hnone rfl h
        rw [if_neg h3] at h
        by_cases h4 : name = js "record"
        · rw [if_pos h4] at h
          exact hnone rfl h
        rw [if_neg h4] at h
        by_cases h5 : name = js "matches"
        · rw [if_pos h5] at h
          exact hnone rfl h
        rw [if_neg h5] at h
        by_cases h6 : name = js "report"
        · rw [if_pos h6] at h
          exact hnone rfl h
        rw [if_neg h6] at h
        by_cases h7 : name = js "chat"
        · rw [if_pos h7] at h
          exact hnone rfl h
        rw [if_neg h7] at h
        rw [if_neg h1] at h
        by_cases h9 : name = js "profile"
        · rw [if_pos h9] at h
          exact hnone rfl h
        rw [if_neg h9] at h
        by_cases h10 : name = js "more"
        · rw [if_pos h10] at h
          exact hnone rfl h
        rw [if_neg h10] at h
        by_cases h11 : name = js "admin"
        · rw [if_pos h11] at h
          exact hnone rfl h
        rw [if_neg h11] at h
        by_cases h12 : name = js "settings"
        · rw [if_pos h12] at h
          exact hnone rfl h
        rw [if_neg h12] at h
        rw [if_neg h2] at h
        by_cases h14 : name = js "attendees"
        · rw [if_pos h14] at h
          cases more with
          | nil => exact hnone rfl h
          | cons npub more => exact hnone rfl h
        rw [if_neg h14] at h
        exact hnone rfl h

theorem mem_of_routeOf {n : JsString} (h : routeOf hash segments query = .talk n d ∨ routeOf hash segments query = .post n d) : d ∈ segments := by
  cases segments with
  | nil =>
    rcases h with h | h
    · cases h
    · cases h
  | cons name more =>
    unfold routeOf at h
    dsimp only at h
    by_cases he : name = js "e"
    · rw [he] at h
      cases more with
      | nil =>
        rcases h with h | h
        · cases h
        · cases h
      | cons naddr sub => exact List.mem_cons_of_mem _ (List.mem_cons_of_mem _ (mem_of_eventRoute h))
    · rw [if_neg he] at h
      exfalso
      rcases h with h | h
      · split_ifs at h
        cases more <;> cases h
      · split_ifs at h
        cases more <;> cases h

/-- A route whose identifier has none of the separators, or whose hash is of an unknown path and gives no credential. -/
def Returns : Route → Prop
  | .talk _ d | .post _ d => 47 ∉ d ∧ 63 ∉ d
  | .notFound hash => isUnknown (segmentsOf (bodyOf hash)) = true ∧ ∀ name ∈ fragmentCredentials, has (parse (queryOf hash)) name = false
  | _ => True

/-- What is stripped of credentials is another hash. -/
theorem stripFragmentCredentials_eq_iff :
    stripFragmentCredentials hash = hash ↔ ∀ name ∈ fragmentCredentials, has (parse (queryOf hash)) name = false := by
  by_cases hq : 63 ∈ hash
  · obtain ⟨a, b, rfl, ha⟩ : ∃ a b, hash = a ++ 63 :: b ∧ 63 ∉ a := List.eq_append_cons_of_mem hq
    obtain ⟨hpath, hquery⟩ := pathOf_cut ha b
    unfold stripFragmentCredentials
    rw [if_neg (not_not_intro hq), hpath, hquery]
    dsimp only
    by_cases hany : fragmentCredentials.any (has (parse b)) = true
    · rw [if_neg (by rw [hany]; decide)]
      have hgone : (fragmentCredentials.foldl delete (parse b)).length < (parse b).length := by
        obtain ⟨name, hname, hhas⟩ := List.any_eq_true.mp hany
        obtain ⟨p, hp, hpn⟩ := List.any_eq_true.mp hhas
        have hform : fragmentCredentials.foldl delete (parse b) = (parse b).filter fun p => p.1 ∉ fragmentCredentials := by
          simp [fragmentCredentials, delete, List.filter_filter, and_comm]
        rw [hform]
        refine List.length_filter_lt_length_iff_exists.mpr ⟨p, hp, ?_⟩
        rw [of_decide_eq_true hpn]
        simpa using hname
      have hnot : ¬∀ name ∈ fragmentCredentials, has (parse b) name = false := by
        intro hall
        obtain ⟨name, hname, hhas⟩ := List.any_eq_true.mp hany
        rw [hall name hname] at hhas
        cases hhas
      refine iff_of_false (fun he => ?_) hnot
      split_ifs at he with hrest
      · have hne : fragmentCredentials.foldl delete (parse b) ≠ [] := by
          intro hnil
          rw [hnil] at hrest
          exact hrest rfl
        exact toString_ne hgone hne (List.cons.inj (List.append_cancel_left he)).2
      · have hlen := congrArg List.length he
        simp at hlen
    · have hfalse : fragmentCredentials.any (has (parse b)) = false := Bool.eq_false_iff.mpr hany
      rw [if_pos (by rw [hfalse]; rfl)]
      refine iff_of_true rfl fun name hname => ?_
      have hno := List.any_eq_false.mp hfalse name hname
      exact Bool.eq_false_iff.mpr hno
  · have hquery : queryOf hash = [] := (pathOf_plain hq).2
    rw [stripFragmentCredentials, if_pos hq, hquery, parse_nil]
    exact iff_of_true rfl fun name _ => rfl

theorem parse_param {value : JsString} (hv : Bech32Text value) : parse (js "nsec=" ++ value) = [(js "nsec", value)] ∧
    parse (js "code=" ++ value) = [(js "code", value)] := by
  have hall : ∀ {name : JsString}, name.all (fun d => decide (Alphanumeric d)) = true → ∀ d ∈ name, Alphanumeric d :=
    fun h d hd => of_decide_eq_true (List.all_eq_true.mp h d hd)
  have hnsec : ∀ d ∈ js "nsec", Alphanumeric d := hall (by decide)
  have hcode : ∀ d ∈ js "code", Alphanumeric d := hall (by decide)
  exact ⟨parse_one hnsec hv, parse_one hcode hv⟩

/-- **Routes are read back from their hash** where their identifier has no `/` and no `?`. -/
theorem parseHash_buildHash {r : Route} (h : WellNamed r) : parseHash (buildHash r) = r ↔ Returns r := by
  have hsub : ∀ (sub : JsString), 47 ∉ sub ∧ 63 ∉ sub ∧ sub ≠ [] → ∀ {naddr : JsString}, Bech32Text naddr → ∀ {r : Route}, (∀ k, r ≠ .notFound k) →
      eventRoute (eventHash naddr (47 :: sub)) naddr [sub] [] = r → parseHash (eventHash naddr (47 :: sub)) = r := by
    intro sub hs naddr hn r hr he
    exact parseHash_eq ((parse_event hn hs).1.trans he) hr
  have hword : ∀ (sub : JsString) {d : JsString} {r : Route}, 47 ∉ sub ∧ 63 ∉ sub ∧ sub ≠ [] → ∀ {naddr : JsString}, Bech32Text naddr → (∀ k, r ≠ .notFound k) →
      eventRoute (eventHash naddr (47 :: (sub ++ 47 :: d))) naddr [sub, d] [] = r → 47 ∉ d ∧ 63 ∉ d ∧ d ≠ [] →
      parseHash (eventHash naddr (47 :: (sub ++ 47 :: d))) = r := by
    intro sub d r hs naddr hn hr he hd
    exact parseHash_eq (((parse_event hn hs).2.1 d hd).trans he) hr
  cases r with
  | home => exact iff_of_true (by decide) trivial
  | create => exact iff_of_true (by decide) trivial
  | me => exact iff_of_true (by decide) trivial
  | settings => exact iff_of_true (by decide) trivial
  | dm => exact iff_of_true (by decide) trivial
  | login nsec =>
    refine iff_of_true ?_ trivial
    cases nsec with
    | none => decide
    | some nsec =>
      have hn : Bech32Text nsec := h nsec rfl
      have hone : ∀ x ∈ [js "login"], 47 ∉ x ∧ 63 ∉ x ∧ x ≠ [] := by decide
      have hquery := parseRawHash_query (List.cons_ne_nil _ _) hone (js "nsec=" ++ nsec)
      rw [(parse_param hn).1] at hquery
      have hform : buildHash (.login (some nsec)) = js "#/" ++ (joined [js "login"] ++ 63 :: (js "nsec=" ++ nsec)) := if_pos hn.1
      rw [hform]
      exact parseHash_eq hquery fun k hk => by cases hk
  | event naddr =>
    refine iff_of_true ?_ trivial
    have hplain : ∀ x ∈ [js "e", naddr], 47 ∉ x ∧ 63 ∉ x ∧ x ≠ [] := by
      intro x hx
      rcases List.mem_cons.mp hx with rfl | hx
      · decide
      · rw [List.mem_singleton.mp hx]
        exact ⟨h.not_mem.2.1, h.not_mem.1, h.1⟩
    have hraw := parseRawHash_joined (List.cons_ne_nil _ _) hplain
    rw [← (eventHash_joined naddr [] []).1] at hraw
    exact parseHash_eq hraw fun k hk => by cases hk
  | join naddr code =>
    refine iff_of_true ?_ trivial
    cases code with
    | none => exact hsub (js "join") (by decide) h.1 (fun k hk => by cases hk) rfl
    | some code =>
      have hc : Bech32Text code := h.2 code rfl
      have hquery := (parse_event h.1 (show 47 ∉ js "join" ∧ 63 ∉ js "join" ∧ js "join" ≠ [] by decide)).2.2 (js "code=" ++ code)
      rw [(parse_param hc).2] at hquery
      have hform : buildHash (.join naddr (some code)) = eventHash naddr (47 :: (js "join" ++ 63 :: (js "code=" ++ code))) := if_pos hc.1
      rw [hform]
      exact parseHash_eq hquery fun k hk => by cases hk
  | record naddr talk =>
    refine iff_of_true ?_ trivial
    cases talk with
    | false => exact hsub (js "record") (by decide) h (fun k hk => by cases hk) rfl
    | true =>
      have hquery := (parse_event h (show 47 ∉ js "record" ∧ 63 ∉ js "record" ∧ js "record" ≠ [] by decide)).2.2 (js "talk=1")
      have htalk : parse (js "talk=1") = [(js "talk", js "1")] := by decide
      rw [htalk] at hquery
      exact parseHash_eq hquery fun k hk => by cases hk
  | attendees naddr => exact iff_of_true (hsub (js "attendees") (by decide) h (fun k hk => by cases hk) rfl) trivial
  | report naddr => exact iff_of_true (hsub (js "report") (by decide) h (fun k hk => by cases hk) rfl) trivial
  | chat naddr => exact iff_of_true (hsub (js "chat") (by decide) h (fun k hk => by cases hk) rfl) trivial
  | talks naddr => exact iff_of_true (hsub (js "talks") (by decide) h (fun k hk => by cases hk) rfl) trivial
  | myProfile naddr => exact iff_of_true (hsub (js "profile") (by decide) h (fun k hk => by cases hk) rfl) trivial
  | eventMore naddr => exact iff_of_true (hsub (js "more") (by decide) h (fun k hk => by cases hk) rfl) trivial
  | admin naddr => exact iff_of_true (hsub (js "admin") (by decide) h (fun k hk => by cases hk) rfl) trivial
  | eventSettings naddr => exact iff_of_true (hsub (js "settings") (by decide) h (fun k hk => by cases hk) rfl) trivial
  | posts naddr => exact iff_of_true (hsub (js "posts") (by decide) h (fun k hk => by cases hk) rfl) trivial
  | attendee naddr npub =>
    exact iff_of_true (hword (js "attendees") (by decide) h.1 (fun k hk => by cases hk) rfl ⟨h.2.not_mem.2.1, h.2.not_mem.1, h.2.1⟩) trivial
  | dmPeer npub =>
    refine iff_of_true ?_ trivial
    have hplain : ∀ x ∈ [js "dm", npub], 47 ∉ x ∧ 63 ∉ x ∧ x ≠ [] := by
      intro x hx
      rcases List.mem_cons.mp hx with rfl | hx
      · decide
      · rw [List.mem_singleton.mp hx]
        exact ⟨h.not_mem.2.1, h.not_mem.1, h.1⟩
    have hraw := parseRawHash_joined (List.cons_ne_nil _ _) hplain
    have hform : buildHash (.dmPeer npub) = js "#/" ++ joined [js "dm", npub] := by
      unfold joined
      rw [List.intercalate_cons_cons, List.intercalate_singleton]
      rfl
    rw [hform]
    exact parseHash_eq hraw fun k hk => by cases hk
  | talk naddr d =>
    constructor
    · intro he
      have hmem := segment_plain (mem_of_routeOf (.inl (parseRawHash_eq he fun k hk => by cases hk)))
      exact ⟨hmem.1, hmem.2.1⟩
    · exact fun hd => hword (js "talks") (by decide) h.1 (fun k hk => by cases hk) rfl ⟨hd.1, hd.2, h.2⟩
  | post naddr d =>
    constructor
    · intro he
      have hmem := segment_plain (mem_of_routeOf (.inr (parseRawHash_eq he fun k hk => by cases hk)))
      exact ⟨hmem.1, hmem.2.1⟩
    · exact fun hd => hword (js "posts") (by decide) h.1 (fun k hk => by cases hk) rfl ⟨hd.1, hd.2, h.2⟩
  | notFound hash =>
    have hkept : parseHash hash = .notFound hash ↔ parseRawHash hash = .notFound hash ∧ stripFragmentCredentials hash = hash := by
      unfold parseHash
      split
      · next kept hraw =>
        have hk : kept = hash := (routeOf_notFound.mp hraw).1
        rw [hk] at hraw ⊢
        rw [hraw, Route.notFound.injEq]
        exact ⟨fun he => ⟨rfl, he⟩, And.right⟩
      · next hno => exact iff_of_false (fun he => hno _ he) fun he => hno _ he.1
    have hraw : parseRawHash hash = .notFound hash ↔ isUnknown (segmentsOf (bodyOf hash)) = true := by
      rw [parseRawHash, routeOf_notFound]
      exact ⟨And.right, fun he => ⟨rfl, he⟩⟩
    rw [buildHash, hkept, hraw, stripFragmentCredentials_eq_iff, Returns]

/-! ## What an unknown route keeps -/

variable {pre post v v' w x y z : JsString}

/-- The text of a hash with a value after a `=`. -/
def given (pre v post : JsString) : JsString := pre ++ 61 :: (v ++ post)

/-- A value ends at each of the separators. -/
def IsValue (v : JsString) : Prop := ∀ c ∈ v, c ≠ 38 ∧ c ≠ 63 ∧ c ≠ 35 ∧ c ≠ 47

/-- The route is the same whatever the value is: the hash it keeps tells nothing of it. -/
def Forgets (pre post : JsString) : Prop := ∀ v v', IsValue v → IsValue v' → parseHash (given pre v post) = parseHash (given pre v' post)

/-- The piece of a query that its end belongs to. -/
def lastPiece (query : JsString) : JsString := ((withoutMark query).splitOn 38).getLastD []

/-- Between `&`s after the first `?`, the value's piece has a name that is a credential's. -/
def Stripped (pre : JsString) : Prop := 63 ∈ pre ∧ decode ((lastPiece (queryOf pre)).takeWhile (· ≠ 61)) ∈ fragmentCredentials

theorem isValue_letter (c : CodeUnit) (hc : 97 ≤ c.val ∧ c.val ≤ 122) : IsValue [c] := by
  intro d hd
  rw [List.mem_singleton.mp hd]
  have hne : ∀ e : CodeUnit, e.val < 97 → c ≠ e := by
    intro e he h
    rw [h] at hc
    omega
  exact ⟨hne 38 (by decide), hne 63 (by decide), hne 35 (by decide), hne 47 (by decide)⟩

/-- Where each letter is kept as a letter between the same texts, the hash tells it. -/
theorem not_forgets {x y : JsString} (h : ∀ c : CodeUnit, 97 ≤ c.val ∧ c.val ≤ 122 → parseHash (given pre [c] post) = .notFound (x ++ c :: y)) :
    ¬Forgets pre post := by
  intro hall
  have ha : 97 ≤ (97 : CodeUnit).val ∧ (97 : CodeUnit).val ≤ 122 := by decide
  have hb : 97 ≤ (98 : CodeUnit).val ∧ (98 : CodeUnit).val ≤ 122 := by decide
  have hsame := hall [97] [98] (isValue_letter 97 ha) (isValue_letter 98 hb)
  rw [h 97 ha, h 98 hb] at hsame
  have htails := List.append_cancel_left (Route.notFound.inj hsame)
  exact absurd (List.cons.inj htails).1 (by decide)

theorem withoutHead_append {c mark : CodeUnit} (h : c ≠ mark) (s t : JsString) : withoutHead mark (s ++ c :: t) = withoutHead mark s ++ c :: t := by
  unfold withoutHead
  cases s with
  | nil => exact if_neg fun he => h (Option.some.inj he)
  | cons d s =>
    by_cases hd : d = mark
    · have hhead : ∀ u : JsString, (d :: u).head? = some mark := fun u => congrArg some hd
      rw [List.cons_append, if_pos (hhead _), if_pos (hhead _)]
      rfl
    · have hhead : ∀ u : JsString, ¬(d :: u).head? = some mark := fun u he => hd (Option.some.inj he)
      rw [List.cons_append, if_neg (hhead _), if_neg (hhead _), List.cons_append]

/-- What is tolerated at the start is so before a value. -/
theorem bodyOf_append {c : CodeUnit} (h35 : c ≠ 35) (h47 : c ≠ 47) (s t : JsString) : bodyOf (s ++ c :: t) = bodyOf s ++ c :: t := by
  unfold bodyOf
  rw [withoutHead_append h35, withoutHead_append h47]

theorem mem_withoutHead {c mark : CodeUnit} (h : c ∈ withoutHead mark s) : c ∈ s := by
  unfold withoutHead at h
  split_ifs at h
  · exact List.mem_of_mem_drop h
  · exact h

theorem mem_bodyOf {c : CodeUnit} (h : c ∈ bodyOf s) : c ∈ s := mem_withoutHead (mem_withoutHead h)

/-! ### In the query -/

/-- The pieces around a value do not depend on it. -/
theorem pieces_given (b post : JsString) : ∃ xs ys : List JsString, ∃ y : JsString, ∀ v, IsValue v →
    pieces (b ++ 61 :: (v ++ post)) = xs ++ (lastPiece b ++ 61 :: (v ++ y)) :: ys := by
  obtain ⟨xs, w, hs⟩ : ∃ xs w, (withoutMark b).splitOn 38 = xs ++ [w] :=
    ⟨_, _, (List.dropLast_append_getLast (List.splitOn_ne_nil 38 (withoutMark b))).symm⟩
  obtain ⟨y, ys, hp⟩ := List.exists_cons_of_ne_nil (List.splitOn_ne_nil (38 : CodeUnit) post)
  refine ⟨xs.filter (· ≠ []), ys.filter (· ≠ []), y, fun v hv => ?_⟩
  have hlast : lastPiece b = w := by
    unfold lastPiece
    rw [hs]
    simp
  have hmark : withoutMark (b ++ 61 :: (v ++ post)) = withoutMark b ++ 61 :: (v ++ post) := by
    cases b with
    | nil => rfl
    | cons c b =>
      rw [List.cons_append, withoutMark, withoutMark]
      split_ifs
      · rfl
      · rfl
  have hvalue : ((61 : CodeUnit) :: v).splitOn 38 = [] ++ [61 :: v] := by
    rw [List.splitOn_eq_singleton]
    · rfl
    · intro hm
      rcases List.mem_cons.mp hm with h | h
      · exact absurd h (by decide)
      · exact (hv 38 h).1 rfl
  have htail : (61 :: (v ++ post)).splitOn 38 = (61 :: (v ++ y)) :: ys := splitOn_append hvalue hp
  unfold pieces
  rw [hmark, splitOn_append hs htail, hlast, List.filter_append, List.filter_cons_of_pos (by simp)]

/-- The parameter of the value's piece: its name does not depend on the value, which is after nothing or after a `=`. -/
theorem pairOf_given (w y : JsString) : ∃ u : JsString, (u = [] ∨ ∃ q, u = q ++ [61]) ∧
    ∀ v, pairOf (w ++ 61 :: (v ++ y)) = (decode (w.takeWhile (· ≠ 61)), decode (u ++ (v ++ y))) := by
  by_cases h : (61 : CodeUnit) ∈ w
  · obtain ⟨p, q, rfl, hp⟩ := List.eq_append_cons_of_mem h
    have hall : ∀ c ∈ p, decide (c ≠ 61) = true := fun c hc => decide_eq_true fun he => hp (he ▸ hc)
    refine ⟨q ++ [61], .inr ⟨q, rfl⟩, fun v => ?_⟩
    unfold pairOf
    rw [List.append_assoc, List.cons_append, List.takeWhile_append_of_pos hall, List.takeWhile_append_of_pos hall, List.dropWhile_append_of_pos hall]
    simp
  · have hall : ∀ c ∈ w, decide (c ≠ 61) = true := fun c hc => decide_eq_true fun he => h (he ▸ hc)
    refine ⟨[], .inl rfl, fun v => ?_⟩
    unfold pairOf
    rw [List.takeWhile_append_of_pos hall, List.dropWhile_append_of_pos hall, List.takeWhile_eq_self_iff.mpr hall]
    simp

/-- What is written of the other parameters does not depend on one of them. -/
theorem toString_given (ps qs : List (JsString × JsString)) : ∃ s t : JsString, ∀ p, SearchParams.toString (ps ++ p :: qs) = s ++ (pieceOf p ++ t) := by
  unfold SearchParams.toString
  induction ps with
  | nil =>
    cases qs with
    | nil => exact ⟨[], [], fun p => by simp⟩
    | cons q qs =>
      refine ⟨[], 38 :: [(38 : CodeUnit)].intercalate ((q :: qs).map pieceOf), fun p => ?_⟩
      rw [List.nil_append, List.map_cons, List.map_cons, List.intercalate_cons_cons, List.append_assoc]
      rfl
  | cons q ps ih =>
    obtain ⟨s, t, ih⟩ := ih
    refine ⟨pieceOf q ++ (38 :: s), t, fun p => ?_⟩
    have hne : (ps ++ p :: qs).map pieceOf ≠ [] := by simp
    rw [List.cons_append, List.map_cons, List.intercalate_cons_of_ne_nil hne, ih p]
    simp

theorem delete_all (params : List (JsString × JsString)) :
    fragmentCredentials.foldl delete params = params.filter fun p => p.1 ∉ fragmentCredentials := by
  simp [fragmentCredentials, delete, List.filter_filter, and_comm]

/-- After the first `?` a value is forgotten exactly when its piece is a credential's. -/
theorem forgets_query {a b : JsString} (ha : 63 ∉ a) (hunknown : isUnknown (segmentsOf (bodyOf a)) = true) :
    Forgets (a ++ 63 :: b) post ↔ decode ((lastPiece b).takeWhile (· ≠ 61)) ∈ fragmentCredentials := by
  have hbody : (63 : CodeUnit) ∉ bodyOf a := fun h => ha (mem_bodyOf h)
  have hform : ∀ v, given (a ++ 63 :: b) v post = a ++ 63 :: (b ++ 61 :: (v ++ post)) := fun v => by simp [given]
  have hparse : ∀ v, parseHash (given (a ++ 63 :: b) v post) = .notFound (stripFragmentCredentials (given (a ++ 63 :: b) v post)) := by
    intro v
    have hraw : parseRawHash (given (a ++ 63 :: b) v post) = .notFound (given (a ++ 63 :: b) v post) := by
      refine routeOf_notFound.mpr ⟨rfl, ?_⟩
      rw [hform, bodyOf_append (by decide) (by decide), segmentsOf, (pathOf_cut hbody _).1]
      rw [segmentsOf, (pathOf_plain hbody).1] at hunknown
      exact hunknown
    unfold parseHash
    rw [hraw]
  obtain ⟨xs, ys, y, hpieces⟩ := pieces_given b post
  obtain ⟨u, hu, hpair⟩ := pairOf_given (lastPiece b) y
  generalize decode ((lastPiece b).takeWhile (· ≠ 61)) = name at hpair ⊢
  have hparams : ∀ v, IsValue v → parse (queryOf (given (a ++ 63 :: b) v post)) = xs.map pairOf ++ (name, decode (u ++ (v ++ y))) :: ys.map pairOf := by
    intro v hv
    rw [hform, (pathOf_cut ha _).2, parse, hpieces v hv, List.map_append, List.map_cons, hpair]
  have hpath : ∀ v, pathOf (given (a ++ 63 :: b) v post) = a := fun v => by rw [hform, (pathOf_cut ha _).1]
  have hmem : ∀ v, ¬63 ∉ given (a ++ 63 :: b) v post := fun v => by simp [given]
  by_cases hname : name ∈ fragmentCredentials
  · refine iff_of_true (fun v v' hv hv' => ?_) hname
    have hstrip : ∀ v, IsValue v → stripFragmentCredentials (given (a ++ 63 :: b) v post) =
        (let rest := SearchParams.toString ((xs.map pairOf ++ ys.map pairOf).filter fun p => p.1 ∉ fragmentCredentials)
        if rest ≠ [] then a ++ 63 :: rest else a) := by
      intro v hv
      have hany : fragmentCredentials.any (has (xs.map pairOf ++ (name, decode (u ++ (v ++ y))) :: ys.map pairOf)) = true := by
        refine List.any_eq_true.mpr ⟨name, hname, List.any_eq_true.mpr ⟨_, List.mem_append_right _ List.mem_cons_self, ?_⟩⟩
        exact decide_eq_true rfl
      unfold stripFragmentCredentials
      rw [if_neg (hmem v), hparams v hv, hpath]
      dsimp only
      rw [if_neg (by rw [hany]; decide), delete_all, List.filter_append, List.filter_cons_of_neg (by simpa using hname), ← List.filter_append]
    rw [hparse, hparse, hstrip v hv, hstrip v' hv']
  · refine iff_of_false ?_ hname
    obtain ⟨p, q, hletter⟩ := decode_after hu y
    have hhas : ∀ val, fragmentCredentials.any (has (xs.map pairOf ++ (name, val) :: ys.map pairOf)) =
        fragmentCredentials.any (has (xs.map pairOf ++ ys.map pairOf)) := by
      intro val
      have hone : ∀ k ∈ fragmentCredentials, has (xs.map pairOf ++ (name, val) :: ys.map pairOf) k = has (xs.map pairOf ++ ys.map pairOf) k := by
        intro k hk
        have hne : decide (name = k) = false := decide_eq_false fun he => hname (he ▸ hk)
        unfold has
        rw [List.any_append, List.any_append, List.any_cons, hne, Bool.false_or]
      simp only [show fragmentCredentials = [js "nsec", js "code"] from rfl, List.any_cons, List.any_nil, hone (js "nsec") List.mem_cons_self,
        hone (js "code") (List.mem_cons_of_mem _ List.mem_cons_self)]
    by_cases hany : fragmentCredentials.any (has (xs.map pairOf ++ ys.map pairOf)) = true
    · obtain ⟨s, t, hwritten⟩ := toString_given ((xs.map pairOf).filter fun p => p.1 ∉ fragmentCredentials)
        ((ys.map pairOf).filter fun p => p.1 ∉ fragmentCredentials)
      refine not_forgets (x := a ++ 63 :: (s ++ (encode name ++ 61 :: encode p))) (y := encode q ++ t) fun c hc => ?_
      rw [hparse]
      refine congrArg Route.notFound ?_
      unfold stripFragmentCredentials
      rw [if_neg (hmem [c]), hparams [c] (isValue_letter c hc), hpath]
      dsimp only
      rw [hhas, if_neg (by rw [hany]; decide), delete_all, List.filter_append, List.filter_cons_of_pos (by simpa using hname), hwritten,
        if_pos (by simp [pieceOf]), pieceOf, List.singleton_append, hletter c hc, encode_letter hc]
      simp
    · have hfalse : fragmentCredentials.any (has (xs.map pairOf ++ ys.map pairOf)) = false := Bool.eq_false_iff.mpr hany
      refine not_forgets (x := a ++ 63 :: b ++ [61]) (y := post) fun c hc => ?_
      rw [hparse]
      refine congrArg Route.notFound ?_
      unfold stripFragmentCredentials
      rw [if_neg (hmem [c]), hparams [c] (isValue_letter c hc)]
      dsimp only
      rw [hhas, hfalse, if_pos (show (!false) = true from rfl)]
      simp [given]

/-! ### In the path -/

/-- A segment with a `=` is no name of the router's. -/
theorem isUnknown_given {A B : List JsString} {s s' : JsString} (hs : 61 ∈ s) (hs' : 61 ∈ s') :
    isUnknown (A ++ s :: B) = isUnknown (A ++ s' :: B) := by
  have hne : ∀ {t : JsString}, 61 ∈ t → t ∉ topNames ∧ t ∉ subNames ∧ t ≠ js "e" := by
    intro t ht
    have hall : ∀ name ∈ js "e" :: (topNames ++ subNames), 61 ∉ name := by decide
    refine ⟨fun hm => ?_, fun hm => ?_, fun he => ?_⟩
    · exact hall t (List.mem_cons_of_mem _ (List.mem_append_left _ hm)) ht
    · exact hall t (List.mem_cons_of_mem _ (List.mem_append_right _ hm)) ht
    · exact hall t (by rw [he]; exact List.mem_cons_self) ht
  obtain ⟨h1, h2, h3⟩ := hne hs
  obtain ⟨h1', h2', h3'⟩ := hne hs'
  match A with
  | [] => simp [isUnknown, h1, h3, h1', h3']
  | [x] => cases B <;> simp [isUnknown]
  | [x, y] => simp [isUnknown, h2, h2']
  | x :: y :: z :: A => simp [isUnknown]

theorem queryOf_append (h : 63 ∉ s) : queryOf (s ++ t) = queryOf t := by
  have hall : ∀ c ∈ s, decide (c ≠ 63) = true := fun c hc => decide_eq_true fun he => h (he ▸ hc)
  unfold queryOf
  rw [List.dropWhile_append_of_pos hall]

/-- Before the first `?` the text of the value is kept, whatever is stripped after it. -/
theorem strip_path (h : 63 ∉ pre) (post : JsString) : ∃ t, ∀ v, IsValue v → stripFragmentCredentials (given pre v post) = pre ++ 61 :: (v ++ t) := by
  have hfront : ∀ v, IsValue v → 63 ∉ pre ++ 61 :: v := by
    intro v hv hm
    rcases List.mem_append.mp hm with hm | hm
    · exact h hm
    · rcases List.mem_cons.mp hm with he | hm
      · exact absurd he (by decide)
      · exact (hv 63 hm).2.1 rfl
  have hform : ∀ v, given pre v post = (pre ++ 61 :: v) ++ post := fun v => by simp [given]
  by_cases hpost : 63 ∈ post
  · by_cases hany : fragmentCredentials.any (has (parse (queryOf post))) = true
    · by_cases hrest : SearchParams.toString (fragmentCredentials.foldl delete (parse (queryOf post))) ≠ []
      · refine ⟨pathOf post ++ 63 :: SearchParams.toString (fragmentCredentials.foldl delete (parse (queryOf post))), fun v hv => ?_⟩
        unfold stripFragmentCredentials
        rw [hform, if_neg (not_not_intro (List.mem_append_right _ hpost)), queryOf_append (hfront v hv), pathOf_append (hfront v hv)]
        dsimp only
        rw [if_neg (by rw [hany]; decide), if_pos hrest]
        simp
      · refine ⟨pathOf post, fun v hv => ?_⟩
        unfold stripFragmentCredentials
        rw [hform, if_neg (not_not_intro (List.mem_append_right _ hpost)), queryOf_append (hfront v hv), pathOf_append (hfront v hv)]
        dsimp only
        rw [if_neg (by rw [hany]; decide), if_neg hrest]
        simp
    · refine ⟨post, fun v hv => ?_⟩
      have hfalse : fragmentCredentials.any (has (parse (queryOf post))) = false := Bool.eq_false_iff.mpr hany
      unfold stripFragmentCredentials
      rw [hform, if_neg (not_not_intro (List.mem_append_right _ hpost)), queryOf_append (hfront v hv)]
      dsimp only
      rw [hfalse, if_pos (show (!false) = true from rfl)]
      simp
  · refine ⟨post, fun v hv => ?_⟩
    have hno : 63 ∉ given pre v post := by
      rw [hform]
      exact fun hm => (List.mem_append.mp hm).elim (hfront v hv) hpost
    rw [stripFragmentCredentials, if_pos hno, hform]
    simp

theorem not_forgets_path (hpre : 63 ∉ pre) (hv : IsValue v) (h : parseHash (given pre v post) = .notFound kept) : ¬Forgets pre post := by
  obtain ⟨xs, w, hs⟩ : ∃ xs w, (bodyOf pre).splitOn 47 = xs ++ [w] :=
    ⟨_, _, (List.dropLast_append_getLast (List.splitOn_ne_nil 47 (bodyOf pre))).symm⟩
  obtain ⟨y, ys, hp⟩ := List.exists_cons_of_ne_nil (List.splitOn_ne_nil (47 : CodeUnit) (pathOf post))
  have hsegments : ∀ u, IsValue u → segmentsOf (bodyOf (given pre u post)) = xs.filter (· ≠ []) ++ (w ++ 61 :: (u ++ y)) :: ys.filter (· ≠ []) := by
    intro u hu
    have hfront : 63 ∉ bodyOf pre ++ 61 :: u := by
      intro hm
      rcases List.mem_append.mp hm with hm | hm
      · exact hpre (mem_bodyOf hm)
      · rcases List.mem_cons.mp hm with he | hm
        · exact absurd he (by decide)
        · exact (hu 63 hm).2.1 rfl
    have hpath : pathOf (bodyOf (given pre u post)) = bodyOf pre ++ 61 :: (u ++ pathOf post) := by
      rw [given, bodyOf_append (by decide) (by decide), show bodyOf pre ++ 61 :: (u ++ post) = (bodyOf pre ++ 61 :: u) ++ post by simp,
        pathOf_append hfront]
      simp
    have hvalue : ((61 : CodeUnit) :: u).splitOn 47 = [] ++ [61 :: u] := by
      rw [List.splitOn_eq_singleton]
      · rfl
      · intro hm
        rcases List.mem_cons.mp hm with he | hm
        · exact absurd he (by decide)
        · exact (hu 47 hm).2.2.2 rfl
    have htail : (61 :: (u ++ pathOf post)).splitOn 47 = (61 :: (u ++ y)) :: ys := splitOn_append hvalue hp
    unfold segmentsOf
    rw [hpath, splitOn_append hs htail, List.filter_append, List.filter_cons_of_pos (by simp)]
  have hunknown : isUnknown (segmentsOf (bodyOf (given pre v post))) = true := by
    unfold parseHash at h
    split at h
    · next k hraw => exact (routeOf_notFound.mp hraw).2
    · next hno => exact absurd h (hno _)
  obtain ⟨t, hstrip⟩ := strip_path hpre post
  refine not_forgets (x := pre ++ [61]) (y := t) fun c hc => ?_
  have hc' := isValue_letter c hc
  have hraw : parseRawHash (given pre [c] post) = .notFound (given pre [c] post) := by
    refine routeOf_notFound.mpr ⟨rfl, ?_⟩
    rw [hsegments [c] hc', ← hunknown, hsegments v hv]
    exact isUnknown_given (by simp) (by simp)
  unfold parseHash
  rw [hraw]
  refine congrArg Route.notFound ?_
  rw [hstrip [c] hc']
  simp

/-- **The hash of an unknown route forgets a value** exactly when its piece of the query is a credential's. -/
theorem forgets_iff (hv : IsValue v) (h : parseHash (given pre v post) = .notFound kept) : Forgets pre post ↔ Stripped pre := by
  by_cases hpre : 63 ∈ pre
  · obtain ⟨a, b, rfl, ha⟩ := List.eq_append_cons_of_mem hpre
    have hbody : (63 : CodeUnit) ∉ bodyOf a := fun hm => ha (mem_bodyOf hm)
    have hunknown : isUnknown (segmentsOf (bodyOf (given (a ++ 63 :: b) v post))) = true := by
      unfold parseHash at h
      split at h
      · next k hraw => exact (routeOf_notFound.mp hraw).2
      · next hno => exact absurd h (hno _)
    rw [show given (a ++ 63 :: b) v post = a ++ 63 :: (b ++ 61 :: (v ++ post)) by simp [given], bodyOf_append (by decide) (by decide), segmentsOf,
      (pathOf_cut hbody _).1] at hunknown
    have hsegments : isUnknown (segmentsOf (bodyOf a)) = true := by
      rw [segmentsOf, (pathOf_plain hbody).1]
      exact hunknown
    rw [forgets_query ha hsegments, Stripped, (pathOf_cut ha b).2]
    exact ⟨fun hname => ⟨hpre, hname⟩, And.right⟩
  · exact iff_of_false (not_forgets_path hpre hv h) fun hs => hpre hs.1

/-- **Routes are read back, and unknown ones forget a value**, exactly where the identifier has none of the separators, and where the value's
piece of the query has the name `nsec` or `code`. -/
theorem routes_keep {r : Route} (hr : WellNamed r) (hv : IsValue v) (h : parseHash (given pre v post) = .notFound kept) :
    (parseHash (buildHash r) = r ↔ Returns r) ∧ (Forgets pre post ↔ Stripped pre) :=
  ⟨parseHash_buildHash hr, forgets_iff hv h⟩

theorem routes_keep_join : parseHash (buildHash (.post (js "naddr1q") (js "a-1"))) = .post (js "naddr1q") (js "a-1") ∧ Forgets (js "#/x?a=1&%6esec") (js "&b=2") := by
  have hplain : js "naddr1q" ≠ [] ∧ (js "naddr1q").all (fun c => decide (Alphanumeric c)) = true := by decide
  have hnaddr : Bech32Text (js "naddr1q") := ⟨hplain.1, fun c hc => of_decide_eq_true (List.all_eq_true.mp hplain.2 c hc)⟩
  have hvalue : IsValue (js "nsec1q") := by
    have hall : (js "nsec1q").all (fun c => decide (c ≠ 38 ∧ c ≠ 63 ∧ c ≠ 35 ∧ c ≠ 47)) = true := by decide
    exact fun c hc => of_decide_eq_true (List.all_eq_true.mp hall c hc)
  have hunknown : parseHash (given (js "#/x?a=1&%6esec") (js "nsec1q") (js "&b=2")) = .notFound (js "#/x?a=1&b=2") := by decide
  obtain ⟨hread, hforget⟩ := routes_keep (r := .post (js "naddr1q") (js "a-1")) ⟨hnaddr, by decide⟩ hvalue hunknown
  exact ⟨hread.mpr ⟨by decide, by decide⟩, hforget.mpr ⟨by decide, by decide⟩⟩

/-- A `/` in an identifier, and a key after a second `?`, which is kept as it stands. -/
theorem separators_break : parseHash (buildHash (.post (js "naddr1q") (js "a/b"))) ≠ .post (js "naddr1q") (js "a/b") ∧
    parseHash (js "#/x?a=1?nsec=nsec1q") = .notFound (js "#/x?a=1?nsec=nsec1q") := by
  constructor
  · decide
  · decide

end Nostrautica.Routes
