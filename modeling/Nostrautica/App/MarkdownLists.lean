/-
The nested lists of `app/src/lib/social/markdown.ts`: `LIST_ITEM`, `isListBlock` and `listBlock`, over
whatever `inline` makes of the text of an item.

What is written is a list for the lines of each run of one depth and one kind, nested by their depth,
with every element closed where it has to be and every line in its place (`listBlock_nested`).
-/
import Nostrautica.Js.Text

namespace Nostrautica.Markdown

open Js

inductive Tag
  | ul | ol
  deriving DecidableEq

def Tag.name : Tag → JsString
  | .ul => js "ul"
  | .ol => js "ol"

/-- An entry of the stack. -/
structure Level where
  indent : Nat
  tag : Tag
  deriving DecidableEq

structure Item where
  level : Level
  text : JsString
  deriving DecidableEq

/-- `\d`. -/
def isDigit (c : CodeUnit) : Bool := 48 ≤ c.val && c.val ≤ 57

/-- What `.` leaves out. -/
def isLineTerminator (c : CodeUnit) : Bool := c.val = 10 || c.val = 13 || c.val = 0x2028 || c.val = 0x2029

/-- `(?:([-*])|(\d+)[.)])`, and what follows it. -/
def readMarker : JsString → Option (Tag × JsString)
  | [] => none
  | c :: rest =>
    if c = codeUnit 45 ∨ c = codeUnit 42 then some (.ul, rest)
    else if isDigit c then
      match rest.dropWhile isDigit with
      | [] => none
      | c' :: rest' => if c' = codeUnit 46 ∨ c' = codeUnit 41 then some (.ol, rest') else none
    else none

/-- `line.match(LIST_ITEM)`. -/
def readItem (line : JsString) : Option Item :=
  (readMarker (line.dropWhile isSpace)).bind fun (tag, rest) =>
    let text := rest.dropWhile isSpace
    if rest.head?.any isSpace && !text.any isLineTerminator then some ⟨⟨(line.takeWhile isSpace).length, tag⟩, text⟩ else none

/-- `isListBlock(lines)`. -/
def isListBlock (lines : List JsString) : Bool := lines.all fun line => (readItem line).isSome

/-- `<ul>`, `<ol>`. -/
def Tag.opening (tag : Tag) : JsString := js "<" ++ tag.name ++ js ">"

/-- `</ul>`, `</ol>`. -/
def Tag.closing (tag : Tag) : JsString := js "</" ++ tag.name ++ js ">"

def liOpening : JsString := js "<li>"

def liClosing : JsString := js "</li>"

/-- The variables of `listBlock`; the top of the stack comes first. -/
structure Rendering where
  stack : List Level := []
  out : JsString := []

/-- `closeOne()`. -/
def Rendering.closeOne (r : Rendering) : Rendering :=
  match r.stack with
  | [] => r
  | top :: below => { stack := below, out := r.out ++ (liClosing ++ top.tag.closing) }

/-- `while (stack.length && top.indent > indent) closeOne()`. -/
def closeDeeper (indent : Nat) : List Level → JsString → Rendering
  | [], out => { out }
  | top :: below, out =>
    if indent < top.indent then closeDeeper indent below (out ++ (liClosing ++ top.tag.closing)) else { stack := top :: below, out }

/-- The list of the same depth and the other kind is closed. -/
def Rendering.closeOther (r : Rendering) (level : Level) : Rendering :=
  match r.stack with
  | [] => r
  | top :: _ => if top.indent = level.indent ∧ top.tag ≠ level.tag then r.closeOne else r

def Rendering.isDeeper (r : Rendering) (level : Level) : Bool := r.stack.head?.all fun top => top.indent < level.indent

section

variable (inline : JsString → JsString)

def Rendering.write (r : Rendering) (item : Item) : Rendering :=
  if r.isDeeper item.level then
    { stack := item.level :: r.stack, out := r.out ++ (item.level.tag.opening ++ (liOpening ++ inline item.text)) }
  else { r with out := r.out ++ (liClosing ++ (liOpening ++ inline item.text)) }

/-- The body of the loop. -/
def Rendering.line (r : Rendering) (item : Item) : Rendering :=
  ((closeDeeper item.level.indent r.stack r.out).closeOther item.level).write inline item

/-- `while (stack.length) closeOne()`. -/
def closeAll : List Level → JsString → JsString
  | [], out => out
  | top :: below, out => closeAll below (out ++ (liClosing ++ top.tag.closing))

/-- `listBlock(lines)`; `none` where a line does not match. -/
def listBlock (lines : List JsString) : Option JsString :=
  (lines.mapM readItem).map fun items =>
    let r := items.foldl (Rendering.line inline) {}
    closeAll r.stack r.out

/-! ## Lists that are nested -/

/-- A list may come after another one in the same place: it is less deep, or of the other kind. -/
def Follows (last : Option Level) (level : Level) : Prop :=
  ∀ l ∈ last, level.indent < l.indent ∨ level.indent = l.indent ∧ level.tag ≠ l.tag

mutual

/-- The lists of one place, which are of a depth of `least` or more and end with one of the level `last`: their items, and their text. -/
inductive Lists : Nat → Option Level → List Item → JsString → Prop
  | nil (least : Nat) : Lists least none [] []
  | snoc {least : Nat} {last : Option Level} {level : Level} {front items : List Item} {before out : JsString}
    (lists : Lists least last front before) (deep : least ≤ level.indent) (follows : Follows last level) (list : Items level items out) :
    Lists least (some level) (front ++ items) (before ++ (level.tag.opening ++ (out ++ level.tag.closing)))

/-- The items of a list, each with the lists that are nested in it. -/
inductive Items : Level → List Item → JsString → Prop
  | first {item : Item} {last : Option Level} {nested : List Item} {out : JsString}
    (lists : Lists (item.level.indent + 1) last nested out) :
    Items item.level (item :: nested) (liOpening ++ (inline item.text ++ (out ++ liClosing)))
  | snoc {item : Item} {last : Option Level} {front nested : List Item} {before out : JsString} (items : Items item.level front before)
    (lists : Lists (item.level.indent + 1) last nested out) :
    Items item.level (front ++ item :: nested) (before ++ (liOpening ++ (inline item.text ++ (out ++ liClosing))))

end

/-- The items of a list before the last one, if any. -/
def Before (level : Level) (items : List Item) (out : JsString) : Prop := items = [] ∧ out = [] ∨ Items inline level items out

/-- The least depth of a list that is nested in the top of the stack. -/
def leastOf : List Level → Nat
  | [] => 0
  | top :: _ => top.indent + 1

/-- What has been written with the lists of the stack open: `last` is the last list that was closed in the innermost place. -/
inductive Open : List Level → Option Level → List Item → JsString → Prop
  | root {last : Option Level} {items : List Item} {out : JsString} (lists : Lists inline 0 last items out) : Open [] last items out
  | li {below : List Level} {lastBelow last : Option Level} {item : Item} {front items nested : List Item} {before out within_ : JsString}
    (under : Open below lastBelow front before) (deep : leastOf below ≤ item.level.indent) (follows : Follows lastBelow item.level)
    (done : Before inline item.level items out) (lists : Lists inline (item.level.indent + 1) last nested within_) :
    Open (item.level :: below) last (front ++ (items ++ item :: nested))
      (before ++ (item.level.tag.opening ++ (out ++ (liOpening ++ (inline item.text ++ within_)))))

end

variable {inline : JsString → JsString} {stack below : List Level} {last : Option Level} {level : Level} {items its : List Item}
  {item : Item} {out out' : JsString}

theorem Follows.none (level : Level) : Follows none level := fun _ h => by cases h

/-- A list is written in the innermost place. -/
theorem Open.append (h : Open inline stack last items out) (hdeep : leastOf stack ≤ level.indent) (hfollows : Follows last level)
    (hitems : Items inline level its out') :
    Open inline stack (some level) (items ++ its) (out ++ (level.tag.opening ++ (out' ++ level.tag.closing))) := by
  cases h with
  | root lists => exact .root (lists.snoc hdeep hfollows hitems)
  | li under deep follows done lists =>
    have h := Open.li under deep follows done (lists.snoc hdeep hfollows hitems)
    simpa only [List.append_assoc, List.cons_append] using h

/-- The items of a list with the one that is being written, once it is closed. -/
theorem Before.close {nested : List Item} {within_ : JsString} (h : Before inline item.level items out)
    (hlists : Lists inline (item.level.indent + 1) last nested within_) :
    Items inline item.level (items ++ item :: nested) (out ++ (liOpening ++ (inline item.text ++ (within_ ++ liClosing)))) := by
  rcases h with ⟨rfl, rfl⟩ | h
  · exact .first hlists
  · exact .snoc h hlists

theorem Open.close (h : Open inline (level :: below) last items out) :
    Open inline below (some level) items (out ++ (liClosing ++ level.tag.closing)) := by
  cases h with
  | li under deep follows done lists =>
    have h := under.append deep follows (done.close lists)
    simpa only [List.append_assoc] using h

/-- The lists of a stack are each deeper than the one under it. -/
theorem Open.deep (h : Open inline (level :: below) last items out) : leastOf below ≤ level.indent := by
  cases h with
  | li _ deep _ _ _ => exact deep

theorem Open.push (h : Open inline stack last items out) (hdeep : leastOf stack ≤ item.level.indent) (hfollows : Follows last item.level) :
    Open inline (item.level :: stack) none (items ++ [item])
      (out ++ (item.level.tag.opening ++ (liOpening ++ inline item.text))) := by
  have h := Open.li h hdeep hfollows (.inl ⟨rfl, rfl⟩) (Lists.nil _)
  simpa only [List.append_nil, List.nil_append] using h

theorem Open.sibling (h : Open inline (item.level :: below) last items out) :
    Open inline (item.level :: below) none (items ++ [item]) (out ++ (liClosing ++ (liOpening ++ inline item.text))) := by
  generalize hl : item.level = l at h
  cases h with
  | li under deep follows done lists =>
    have hdone := done.close lists
    rw [← hl] at deep follows hdone ⊢
    have h : Open inline (item.level :: _) none _ _ := Open.li under deep follows (.inr hdone) (Lists.nil _)
    simpa only [List.append_assoc, List.append_nil] using h

/-! ## The loop -/

/-- The lists that are deeper are closed. -/
theorem open_closeDeeper (indent : Nat) : ∀ {stack : List Level} {last : Option Level} {out : JsString},
    Open inline stack last items out → (∀ l ∈ last, indent < l.indent) →
    ∃ last', Open inline (closeDeeper indent stack out).stack last' items (closeDeeper indent stack out).out ∧
      (∀ l ∈ last', indent < l.indent) ∧ ∀ l ∈ (closeDeeper indent stack out).stack.head?, l.indent ≤ indent
  | [], last, out, h, hlast => ⟨last, h, hlast, fun _ hl => by cases hl⟩
  | top :: below, last, out, h, hlast => by
    unfold closeDeeper
    split_ifs with hdeeper
    · exact open_closeDeeper indent h.close fun l hl => by
        obtain rfl := Option.mem_some.mp hl
        exact hdeeper
    · refine ⟨last, h, hlast, fun l hl => ?_⟩
      obtain rfl := Option.mem_some.mp hl
      exact Nat.le_of_not_lt hdeeper

theorem open_line {r : Rendering} (h : Open inline r.stack none items r.out) (item : Item) :
    Open inline (r.line inline item).stack none (items ++ [item]) (r.line inline item).out := by
  obtain ⟨last, hopen, hlast, hhead⟩ := open_closeDeeper item.level.indent h fun _ hl => by cases hl
  unfold Rendering.line
  generalize closeDeeper item.level.indent r.stack r.out = r' at hopen hhead ⊢
  obtain ⟨stack, out⟩ := r'
  have hfollows : Follows last item.level := fun l hl => .inl (hlast l hl)
  cases stack with
  | nil => exact hopen.push (Nat.zero_le _) hfollows
  | cons top below =>
    have htop : top.indent ≤ item.level.indent := hhead top rfl
    by_cases hother : top.indent = item.level.indent ∧ top.tag ≠ item.level.tag
    · -- the list under it is less deep, so that the item begins one
      have hclosed : Open inline below (some top) items (out ++ (liClosing ++ top.tag.closing)) := hopen.close
      have hdeep : leastOf below ≤ item.level.indent := hother.1 ▸ hopen.deep
      have hdeeper : (Rendering.mk below (out ++ (liClosing ++ top.tag.closing))).isDeeper item.level = true := by
        cases below with
        | nil => rfl
        | cons b _ => exact decide_eq_true hdeep
      have hother_follows : Follows (some top) item.level := fun l hl => by
        obtain rfl := Option.mem_some.mp hl
        exact .inr ⟨hother.1.symm, Ne.symm hother.2⟩
      simp only [Rendering.closeOther, if_pos hother, Rendering.closeOne, Rendering.write, hdeeper, if_true]
      exact hclosed.push hdeep hother_follows
    · simp only [Rendering.closeOther, if_neg hother, Rendering.write]
      by_cases hlt : top.indent < item.level.indent
      · have hdeeper : (Rendering.mk (top :: below) out).isDeeper item.level = true := decide_eq_true hlt
        rw [if_pos hdeeper]
        exact hopen.push hlt hfollows
      · have hdeeper : ¬ (Rendering.mk (top :: below) out).isDeeper item.level = true := fun h => hlt (of_decide_eq_true h)
        have hlevel : top = item.level := by
          have hindent : top.indent = item.level.indent := le_antisymm htop (Nat.le_of_not_lt hlt)
          have htag : top.tag = item.level.tag := not_not.mp fun htag => hother ⟨hindent, htag⟩
          calc top = ⟨top.indent, top.tag⟩ := rfl
            _ = item.level := by rw [hindent, htag]
        rw [if_neg hdeeper]
        subst hlevel
        exact hopen.sibling

theorem open_closeAll : ∀ {stack : List Level} {last : Option Level} {out : JsString}, Open inline stack last items out →
    ∃ last', Lists inline 0 last' items (closeAll stack out)
  | [], last, _, h => by
    cases h with
    | root lists => exact ⟨last, lists⟩
  | _ :: _, _, _, h => by
    unfold closeAll
    exact open_closeAll h.close

theorem open_lines (inline : JsString → JsString) (items : List Item) :
    Open inline (items.foldl (Rendering.line inline) {}).stack none items (items.foldl (Rendering.line inline) {}).out := by
  induction items using List.reverseRecOn with
  | nil => exact .root (Lists.nil 0)
  | append_singleton items item ih =>
    rw [List.foldl_append]
    exact open_line ih item

/-- **A block of list items is written as nested lists**: each line is one item, in the order of the lines; the items of a list have one
depth and one kind; a list is nested in the item before it just where it is deeper; two lists follow each other where the second is less
deep or of the other kind; and all that is opened is closed, the innermost first. -/
theorem listBlock_nested (inline : JsString → JsString) {lines : List JsString} (h : isListBlock lines = true) :
    ∃ items out last, lines.mapM readItem = some items ∧ listBlock inline lines = some out ∧ Lists inline 0 last items out := by
  have hread : ∃ items, lines.mapM readItem = some items := by
    induction lines with
    | nil => exact ⟨[], rfl⟩
    | cons line lines ih =>
      rw [isListBlock, List.all_cons, Bool.and_eq_true] at h
      obtain ⟨item, hitem⟩ := Option.isSome_iff_exists.mp h.1
      obtain ⟨items, hitems⟩ := ih h.2
      exact ⟨item :: items, by simp [List.mapM_cons, hitem, hitems]⟩
  obtain ⟨items, hitems⟩ := hread
  obtain ⟨last, hlists⟩ := open_closeAll (open_lines inline items)
  exact ⟨items, _, last, hitems, by rw [listBlock, hitems]; rfl, hlists⟩

def three : List JsString := [js "- a", js "  1. b", js "- c"]

example : listBlock id three = some (js "<ul><li>a<ol><li>b</li></ol></li><li>c</li></ul>") := by decide

theorem listBlock_nested_three : isListBlock three = true ∧ ∃ items out last, three.mapM readItem = some items ∧
    listBlock id three = some out ∧ Lists id 0 last items out :=
  ⟨by decide, listBlock_nested id (by decide)⟩

end Nostrautica.Markdown
