/-
`supersedePendingJobs` of `coordinator/src/store/db.ts`, and the job rows that
`coordinator/src/coordinator.ts` writes.

A text in the database is well formed, so the JS string it was bound from. What
a handler sends along in a payload besides the coordinate and the pubkey is
any list of fields.

Whose jobs a new revision supersedes: every job whose key begins with
`proc:<coordinate>:<pubkey>:` as `LIKE` compares letters.
-/
import Nostrautica.Sql.Like
import Nostrautica.Store.Runner
import Nostrautica.Transition.Run

namespace Nostrautica

open Js

/-- `%`, `_`, and the escape character that the statement names. -/
def likeSpecial : Sql.Like.Special CodeUnit where
  any := 37
  one := 95
  esc := 92
  nul := 0
  esc_ne_any := by decide
  nul_ne_any := by decide
  nul_ne_one := by decide
  nul_ne_esc := by decide

/-- `text LIKE pattern ESCAPE '\'`: case-insensitive, of ASCII letters. -/
def likeEscape (pattern text : JsString) : Bool := Sql.Like.like likeSpecial likeUnit pattern text

namespace Jobs

/-- `state IN ('pending','waiting')`. -/
def queued (r : JobRow) : Bool := r.state = .pending || r.state = .waiting

/-- `supersedePendingJobs(prefix, keepKey)`. -/
def supersedePendingJobs (j : Jobs) (keyPrefix keepKey : JsString) : Nat × Jobs :=
  let stale := fun r : JobRow =>
    queued r && likeEscape (Sql.Like.escape likeSpecial keyPrefix ++ js "%") r.dedupe_key && r.dedupe_key ≠ keepKey
  (j.changes stale, Runner.remove j stale)

end Jobs

/-! ## What is enqueued -/

/-- The end of a `process_attendee` key, by the handler that enqueues it. -/
inductive ProcessReason
  /-- `enqueueProcess`. -/
  | revision (version lang nostrContextN k0 : JsString)
  /-- `rederiveAfterTalkWithdrawn`. -/
  | talkOut (talkD revision : JsString)
  /-- `retryLater`. -/
  | retry (stage sourceRevision : JsString)
  /-- A talk's transcript is there. -/
  | talk (x : JsString)
  /-- `reprocess`. -/
  | manual

def ProcessReason.text : ProcessReason → JsString
  | .revision version lang nostrContextN k0 => version ++ js ":l=" ++ lang ++ js ":n=" ++ nostrContextN ++ js ":k0=" ++ k0
  | .talkOut talkD rev => js "talk-out:" ++ talkD ++ js ":" ++ rev
  | .retry stage sourceRevision => js "retry:" ++ stage ++ js ":" ++ sourceRevision
  | .talk x => js "talk:" ++ x
  | .manual => js "manual"

/-- The other jobs. -/
inductive OtherJob
  | chatSync
  | chatRecheck
  | chatRevoke
  | recompute
  | batch
  | rbatch
  | pub
  | talk
  | cfg

def OtherJob.type : OtherJob → JsString
  | .chatSync | .chatRecheck => js "chat_sync_member"
  | .chatRevoke => js "chat_revoke_member"
  | .recompute => js "match_recompute"
  | .batch => js "score_batch"
  | .rbatch => js "score_reverse_batch"
  | .pub => js "publish_matches"
  | .talk => js "process_talk"
  | .cfg => js "config_effects"

/-- What its keys begin with. -/
def OtherJob.tag : OtherJob → JsString
  | .chatSync => js "chat-sync:"
  | .chatRecheck => js "chat-recheck:"
  | .chatRevoke => js "chat-revoke:"
  | .recompute => js "match:"
  | .batch => js "batch:"
  | .rbatch => js "rbatch:"
  | .pub => js "pub:"
  | .talk => js "talk:"
  | .cfg => js "cfg:"

/-- One call of `enqueue`. -/
inductive Work
  | process (coordinate pubkey : JsString) (reason : ProcessReason) (fields : List (JsString × Json))
  | other (job : OtherJob) (rest : JsString) (payload : Json)

/-- `proc:<coordinate>:<pubkey>:`. -/
def procPrefix (coordinate pubkey : JsString) : JsString := js "proc:" ++ coordinate ++ js ":" ++ pubkey ++ js ":"

namespace Work

def type : Work → JsString
  | .process .. => js "process_attendee"
  | .other job _ _ => job.type

def key : Work → JsString
  | .process coordinate pubkey reason _ => procPrefix coordinate pubkey ++ reason.text
  | .other job rest _ => job.tag ++ rest

def payload : Work → Json
  | .process coordinate pubkey _ fields =>
    .obj ((js "coordinate", .str coordinate) :: (js "pubkey", .str pubkey) :: fields)
  | .other _ _ payload => payload

end Work

namespace Supersede

/-- What changes the table: a job is enqueued, the state of rows changes, rows go. -/
inductive Act
  | enqueue (work : Work) (notBefore : Int)
  | update (p : JobRow → Bool) (f : JobRow → JobRow) (keep : ∀ r, (f r).toJobSpec = r.toJobSpec)
  | delete (p : JobRow → Bool)
  | supersede (coordinate pubkey keepKey : JsString)

def act (j : Jobs) : Act → Jobs
  | .enqueue work notBefore => (j.enqueueJob work.type work.key work.payload notBefore).2
  | .update p f keep => j.update p f keep
  | .delete p => Runner.remove j p
  | .supersede coordinate pubkey keepKey => (j.supersedePendingJobs (procPrefix coordinate pubkey) keepKey).2

def Step (j : Jobs) (a : Act) (j' : Jobs) : Prop := j' = act j a

end Supersede

/-! ## `enqueueProcess` -/

/-- What `enqueueProcess` reads: the event, the attendee's row, and the bio. -/
structure ProcessInput where
  /-- `state?.matching === "off"`. -/
  off : Bool
  lang : Option JsString
  nostrContextN : Option Nat
  profile_json : Option JsString
  source_revision : Option JsString
  kind0Bio : Option JsString

/-- The end of the key. `digest` is `sha256Hex(utf8ToBytes(_)).slice(0, 16)`. -/
def ProcessInput.reason (digest : JsString → JsString) (i : ProcessInput) : ProcessReason :=
  .revision (digest (i.profile_json.getD [])) (i.lang.getD (js "?")) (natToString (i.nostrContextN.getD 0))
    ((i.kind0Bio.map digest).getD [])

/-- `enqueueProcess(coordinate, pubkey, kind0Bio)`: `none` is `"skipped"`, else
what `enqueueJob` returns. -/
def enqueueProcess (digest : JsString → JsString) (j : Jobs) (coordinate pubkey : JsString) (i : ProcessInput) :
    Option (Option JobState) × Jobs :=
  if i.off then (none, j)
  else
    let revision := match i.source_revision with
      | some s => Json.str s
      | none => Json.null
    let work := Work.process coordinate pubkey (i.reason digest) [(js "sourceRevision", revision)]
    let superseded := (j.supersedePendingJobs (procPrefix coordinate pubkey) work.key).2
    let (outcome, j) := superseded.enqueueJob work.type work.key work.payload 0
    (some outcome, j)

end Nostrautica

namespace Nostrautica.Supersede

open Js Jobs Sql.Like

variable {j j' : Jobs} {r : JobRow} {c p c' p' key : JsString}

/-- The row is of a call of `enqueue`. -/
def Enqueued (r : JobRow) : Prop := ∃ w : Work, r.type = w.type ∧ r.dedupe_key = w.key ∧ r.payload = w.payload

def Inv (j : Jobs) : Prop := ∀ r ∈ j.rows, Enqueued r

theorem inv_remove (h : Inv j) {q : JobRow → Bool} : Inv (Runner.remove j q) :=
  fun r hr => h r (List.mem_of_mem_filter hr)

theorem inv_update (h : Inv j) {q : JobRow → Bool} {f : JobRow → JobRow} (keep : ∀ r, (f r).toJobSpec = r.toJobSpec) :
    Inv (j.update q f keep) := by
  intro r hr
  obtain ⟨s, hs, rfl⟩ := List.mem_map.mp hr
  split
  · obtain ⟨w, hw⟩ := h s hs
    refine ⟨w, ?_⟩
    rw [keep s]
    exact hw
  · exact h s hs

theorem inv_enqueue (h : Inv j) {w : Work} {notBefore : Int} :
    Inv (j.enqueueJob w.type w.key w.payload notBefore).2 := by
  unfold Jobs.enqueueJob
  split
  · intro r hr
    rcases List.mem_append.mp hr with hr | hr
    · exact h r hr
    · rw [List.mem_singleton.mp hr]
      exact ⟨w, rfl, rfl, rfl⟩
  · exact h

theorem Inv.step {a : Act} (h : Inv j) (hs : Step j a j') : Inv j' := by
  subst hs
  cases a with
  | enqueue work notBefore => exact inv_enqueue h
  | update q f keep => exact inv_update h keep
  | delete q => exact inv_remove h
  | supersede coordinate pubkey keepKey => exact inv_remove h

theorem Inv.run {as : List Act} (hj : Inv j) (h : Run Step j as j') : Inv j' := h.invariant (fun _ _ _ => Inv.step) hj

theorem inv_empty : Inv .empty := fun _ hr => absurd hr List.not_mem_nil

/-- A `process_attendee` row whose payload names the coordinate and the pubkey. -/
def names (coordinate pubkey : JsString) (r : JobRow) : Bool :=
  r.type = js "process_attendee" && jsonText r.payload (js "coordinate") = some coordinate &&
    jsonText r.payload (js "pubkey") = some pubkey

/-- What superseding deletes are the jobs of this attendee, but for the one of the key. -/
def Exact (j : Jobs) (coordinate pubkey keepKey : JsString) : Prop :=
  (j.supersedePendingJobs (procPrefix coordinate pubkey) keepKey).2.rows =
    j.rows.filter fun r => !(queued r && names coordinate pubkey r && r.dedupe_key ≠ keepKey)

/-- A job of `pubkey'` at `coordinate'` reads as one of `pubkey` at `coordinate`:
the letters of `<coordinate>:<pubkey>:`, in either case, begin what its key has
after `proc:`. -/
def Confusable (coordinate pubkey coordinate' pubkey' : JsString) (reason : ProcessReason) : Prop :=
  Reaches likeSpecial likeUnit (coordinate ++ js ":" ++ pubkey ++ js ":")
    (coordinate' ++ js ":" ++ pubkey' ++ js ":" ++ reason.text)

/-- No queued job of anyone else is confusable. -/
def Apart (j : Jobs) (coordinate pubkey keepKey : JsString) : Prop :=
  ∀ coordinate' pubkey' reason fields, (coordinate', pubkey') ≠ (coordinate, pubkey) →
    (∃ r ∈ j.rows, queued r = true ∧ r.dedupe_key ≠ keepKey ∧ r.type = js "process_attendee" ∧
      r.dedupe_key = procPrefix coordinate' pubkey' ++ reason.text ∧
      r.payload = (Work.process coordinate' pubkey' reason fields).payload) →
    ¬ Confusable coordinate pubkey coordinate' pubkey' reason

theorem type_ne (job : OtherJob) : job.type ≠ js "process_attendee" := by
  cases job <;> decide

theorem tag_not_proc (job : OtherJob) (rest : JsString) : ¬ (js "proc:").map likeUnit <+: (job.tag ++ rest).map likeUnit := by
  intro h
  have h := congrArg (List.take 2) (List.prefix_iff_eq_take.mp h)
  have hlen : 2 ≤ (job.tag.map likeUnit).length := by cases job <;> decide
  rw [List.take_take, List.map_append, List.take_append_of_le_length ((Nat.min_le_left _ _).trans hlen)] at h
  cases job <;> exact absurd h (by decide)

theorem filter_eq_filter_iff {α : Type*} {l : List α} {f g : α → Bool} : l.filter f = l.filter g ↔ ∀ a ∈ l, f a = g a := by
  refine ⟨fun h a ha => ?_, List.filter_congr⟩
  have hm := congrArg (a ∈ ·) h
  simp only [List.mem_filter, ha, true_and, eq_iff_iff] at hm
  exact Bool.eq_iff_iff.mpr hm

theorem proc_no_nul : likeSpecial.nul ∉ js "proc:" := by decide

/-- Which rows the statement takes for stale, of the keys that are written. -/
theorem reaches_key {w : Work} : Reaches likeSpecial likeUnit (procPrefix c p) w.key ↔
    ∃ c' p' reason fields, w = .process c' p' reason fields ∧ Confusable c p c' p' reason := by
  have hpre : ∀ c p, procPrefix c p = js "proc:" ++ (c ++ js ":" ++ p ++ js ":") := by simp [procPrefix]
  cases w with
  | other job rest payload =>
    constructor
    · intro h
      rw [hpre] at h
      exact absurd (map_prefix_of_reaches proc_no_nul h) (tag_not_proc job rest)
    · rintro ⟨_, _, _, _, h, _⟩
      cases h
  | process c' p' reason fields =>
    have hkey : (Work.process c' p' reason fields).key = js "proc:" ++ (c' ++ js ":" ++ p' ++ js ":" ++ reason.text) := by
      simp [Work.key, procPrefix]
    rw [hpre, hkey, reaches_append proc_no_nul]
    constructor
    · intro h
      exact ⟨c', p', reason, fields, rfl, h⟩
    · rintro ⟨_, _, _, _, h, hc⟩
      cases h
      exact hc

theorem names_other {job : OtherJob} {rest : JsString} {payload : Json} (ht : r.type = (Work.other job rest payload).type) :
    names c p r = false := by
  have : r.type ≠ js "process_attendee" := ht ▸ type_ne job
  simp [names, this]

theorem names_process {reason : ProcessReason} {fields : List (JsString × Json)}
    (ht : r.type = (Work.process c' p' reason fields).type) (hp : r.payload = (Work.process c' p' reason fields).payload) :
    names c p r = true ↔ (c', p') = (c, p) := by
  have htype : r.type = js "process_attendee" := ht
  have hne : js "coordinate" ≠ js "pubkey" := by decide
  have hc : jsonText r.payload (js "coordinate") = some c' := by simp [hp, Work.payload, jsonText]
  have hpk : jsonText r.payload (js "pubkey") = some p' := by simp [hp, Work.payload, jsonText, hne]
  simp [names, htype, hc, hpk]

/-- What superseding deletes, row by row. -/
theorem exact_iff (h : Inv j) : Exact j c p key ↔ Apart j c p key := by
  have hlike : ∀ r : JobRow, likeEscape (Sql.Like.escape likeSpecial (procPrefix c p) ++ js "%") r.dedupe_key = true ↔
      Reaches likeSpecial likeUnit (procPrefix c p) r.dedupe_key := fun _ => like_escape
  have hexact : Exact j c p key ↔ ∀ r ∈ j.rows, queued r = true → r.dedupe_key ≠ key →
      (Reaches likeSpecial likeUnit (procPrefix c p) r.dedupe_key ↔ names c p r = true) := by
    unfold Exact
    refine filter_eq_filter_iff.trans (forall₂_congr fun r _ => ?_)
    rw [Bool.not_inj_iff, Bool.eq_iff_iff]
    simp only [Bool.and_eq_true, decide_eq_true_eq, hlike]
    tauto
  rw [hexact]
  constructor
  · rintro hall c' p' reason fields hne ⟨r, hr, hq, hk, ht, hkey, hp⟩ hconf
    have hreach : Reaches likeSpecial likeUnit (procPrefix c p) r.dedupe_key :=
      hkey ▸ reaches_key.mpr ⟨c', p', reason, fields, rfl, hconf⟩
    have hnames : names c p r = true ↔ (c', p') = (c, p) := names_process ht hp
    exact hne (hnames.mp ((hall r hr hq hk).mp hreach))
  · intro hapart r hr hq hk
    obtain ⟨w, ht, hkey, hp⟩ := h r hr
    rw [hkey, reaches_key]
    constructor
    · rintro ⟨c', p', reason, fields, rfl, hconf⟩
      rw [names_process ht hp]
      by_contra hne
      exact hapart c' p' reason fields hne ⟨r, hr, hq, hk, ht, hkey, hp⟩ hconf
    · intro hn
      cases w with
      | other job rest payload => exact absurd hn (by simp [names_other ht])
      | process c' p' reason fields =>
        obtain ⟨rfl, rfl⟩ := Prod.mk.inj ((names_process ht hp).mp hn)
        exact ⟨c', p', reason, fields, rfl, reaches_self⟩

/-- **Superseding touches only its own attendee**, in a table that calls of
`enqueue` filled, exactly where no queued job of anyone else is confusable. -/
theorem supersede_exact_iff {as : List Act} (h : Run Step .empty as j) : Exact j c p key ↔ Apart j c p key :=
  exact_iff (inv_empty.run h)

/-! ## Identifiers that keep jobs apart -/

/-- Neither a capital nor a NUL. -/
def Plain (s : JsString) : Prop := ∀ u ∈ s, likeUnit u = u ∧ u ≠ 0

theorem Plain.append {s t : JsString} (hs : Plain s) (ht : Plain t) : Plain (s ++ t) :=
  fun u hu => (List.mem_append.mp hu).elim (hs u) (ht u)

theorem Plain.map {s : JsString} (h : Plain s) : s.map likeUnit = s := by
  rw [List.map_congr_left fun u hu => (h u hu).1]
  exact List.map_id' s

theorem Plain.no_nul {s : JsString} (h : Plain s) : likeSpecial.nul ∉ s := fun hm => (h _ hm).2 rfl

theorem plain_colon : Plain (js ":") := by
  intro u hu
  rw [List.mem_singleton.mp hu]
  decide

/-- Of two texts that end in `x` and have it equally often, neither goes on from the other. -/
theorem eq_of_prefix_append {α : Type*} [DecidableEq α] {x : α} {a b t : List α} (h : a ++ [x] <+: b ++ [x] ++ t)
    (hcount : a.count x = b.count x) : a = b := by
  have key : ∀ {a b : List α}, a.count x = b.count x → a ++ [x] <+: b ++ [x] → a = b := by
    rintro a b hcount ⟨z, hz⟩
    have hz0 : z.count x = 0 := by
      have := congrArg (List.count x) hz
      simp only [List.count_append] at this
      omega
    cases z using List.reverseRecOn with
    | nil =>
      rw [List.append_nil] at hz
      exact List.append_cancel_right hz
    | append_singleton z y =>
      rw [← List.append_assoc] at hz
      have hy : y = x := List.singleton_inj.mp (List.append_inj_right' hz rfl)
      simp [hy] at hz0
  rcases List.prefix_or_prefix_of_prefix h (List.prefix_append _ t) with hab | hba
  · exact key hcount hab
  · exact (key hcount.symm hba).symm

/-- Where the identifiers have no colon, no capital and no NUL, and pubkeys are
as long as each other, no job is taken for another's. -/
theorem not_confusable {reason : ProcessReason} (hc : Plain c) (hc' : Plain c') (hp : Plain p) (hp' : Plain p')
    (hcolons : c.count 58 = c'.count 58) (hpc : p.count 58 = 0) (hpc' : p'.count 58 = 0) (hlen : p.length = p'.length)
    (hne : (c', p') ≠ (c, p)) : ¬ Confusable c p c' p' reason := by
  intro h
  have hplain : Plain (c ++ js ":" ++ p ++ js ":") := ((hc.append plain_colon).append hp).append plain_colon
  have hplain' : Plain (c' ++ js ":" ++ p' ++ js ":") := ((hc'.append plain_colon).append hp').append plain_colon
  have hpre : (c ++ js ":" ++ p ++ js ":").map likeUnit <+:
      (c' ++ js ":" ++ p' ++ js ":" ++ reason.text).map likeUnit := by
    refine map_prefix_of_reaches hplain.no_nul (p := []) ?_
    rw [List.append_nil]
    exact h
  have happend : (c' ++ js ":" ++ p' ++ js ":" ++ reason.text).map likeUnit =
      (c' ++ js ":" ++ p' ++ js ":").map likeUnit ++ reason.text.map likeUnit := List.map_append
  rw [happend, hplain.map, hplain'.map] at hpre
  have hcolon : (js ":").count 58 = 1 := by decide
  have heq : c ++ js ":" ++ p = c' ++ js ":" ++ p' := eq_of_prefix_append (x := 58) hpre (by
    simp only [List.count_append, hpc, hpc', hcolons])
  obtain ⟨hcc, hpp⟩ := List.append_inj' heq hlen
  exact hne (by rw [hpp, List.append_cancel_right hcc])

/-! ## Two spellings -/

/-- An organizer, and a member. -/
def organizer : JsString := List.replicate 64 97

def member : JsString := List.replicate 64 98

def lower : JsString := js "31923:" ++ organizer ++ js ":talks"

def upper : JsString := js "31923:" ++ organizer ++ js ":Talks"

/-- The member's job at one event. -/
def job : Work := .process lower member .manual []

def table : Jobs := act .empty (.enqueue job 0)

theorem run_table : Run Step .empty [.enqueue job 0] table := .cons rfl .nil

theorem confusable_spellings : Confusable upper member lower member .manual := by
  unfold Confusable
  decide +kernel

/-- A new revision at an event deletes the job that the same person has queued
at another, of the same name in other letters. -/
theorem respelled_event : ¬ ∀ as j coordinate pubkey keepKey, Run Step .empty as j → Exact j coordinate pubkey keepKey := by
  intro h
  have hex := h _ _ upper member [] run_table
  rw [exact_iff (inv_empty.run run_table)] at hex
  have hne : (lower, member) ≠ (upper, member) := by decide +kernel
  have hkey : job.key ≠ [] := List.append_ne_nil_of_left_ne_nil (List.append_ne_nil_of_right_ne_nil _ (by decide)) _
  exact hex lower member .manual [] hne ⟨_, List.mem_singleton_self _, rfl, hkey, rfl, rfl, rfl⟩ confusable_spellings

theorem supersede_exact_iff_own : Exact table lower member [] := by
  refine (supersede_exact_iff run_table).mpr ?_
  rintro c' p' reason fields hne ⟨r, hr, -, -, -, -, hp⟩ -
  rw [List.mem_singleton.mp hr] at hp
  have hp : job.payload = (Work.process c' p' reason fields).payload := hp
  simp only [job, Work.payload, Json.obj.injEq, List.cons.injEq, Prod.mk.injEq, Json.str.injEq, true_and] at hp
  exact hne (by rw [hp.1, hp.2.1])

end Nostrautica.Supersede
