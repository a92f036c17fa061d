import Mathlib.Data.List.Induction
import QueryMarkup.Proofs.Document.Mirror

/-!
# The elements of a list of tokens

Which elements tokens in any order make up, where each stands and what belongs to it. No tree
plays a part in this. Of these elements some can be placed in a tree and some cannot.
-/
namespace QueryMarkup

/-- Stores a value in the last attribute of a start tag, if that has none. -/
def StagedElement.takeValue (e : StagedElement) (raw : String) : StagedElement :=
  match e.attributes.getLast? with
  | some { name, span, value := none } =>
    let value := String.ofList (Text.decodeChars (Builder.unquote raw.toList))
    { e with attributes := e.attributes.dropLast ++ [⟨name, span, some value⟩] }
  | _ => e

/-- An element whose start tag was ended or given up. -/
structure Element where
  start : StagedElement
  /-- The number of the innermost element that was open then. -/
  around : Option Nat
  /-- How many elements were open then. -/
  depth : Nat

/-- What some tokens amount to. -/
structure Gathered where
  phase : Phase := .opening
  /-- A tag was opened and neither ended nor given up. -/
  inTag : Bool := false
  staged : Option StagedElement := none
  /-- The numbers of the open elements, the innermost first. -/
  stack : List Nat := []
  elements : List Element := []
  /-- The texts that are not blank, each with the number of the element that it stands in. -/
  texts : List (Nat × String) := []

namespace Gathered

def enter (g : Gathered) (start : StagedElement) (selfClosing : Bool) : Gathered :=
  { g with
    elements := g.elements ++ [⟨start, g.stack.head?, g.stack.length⟩]
    stack := if selfClosing then g.stack else g.elements.length :: g.stack }

/-- A start tag that never ended makes an element without content. -/
def abandon (g : Gathered) : Gathered :=
  let closed := { g with inTag := false, staged := none }
  match g.staged with
  | some start => closed.enter start true
  | none => closed

/-- A close tag closes the innermost open element, whichever it names. A start tag makes one. -/
def leave (g : Gathered) (selfClosing : Bool) : Gathered :=
  if g.phase = .closing then { g with stack := g.stack.tail }
  else match g.staged with
    | some start => { g with staged := none }.enter start selfClosing
    | none => g

def endTag (g : Gathered) (selfClosing : Bool) : Gathered :=
  { g.leave selfClosing with
    inTag := false
    phase := if selfClosing then .flat else if g.phase = .closing then .opening else g.phase }

def readText (g : Gathered) (chars : List Char) : Gathered :=
  if Text.isAllBlank chars then g
  else { g with texts := g.texts ++ g.stack.head?.toList.map fun k => (k, Markup.textOf chars) }

def next (source : String) (g : Gathered) (token : Token) : Gathered :=
  let word := Text.slice source token.span
  match token.kind with
  | .startTag => { g.abandon with inTag := true, phase := .opening }
  | .startCloseTag => { g.abandon with inTag := true, phase := .closing }
  | .tagName =>
    if g.phase ≠ .closing ∧ g.inTag then { g with staged := some ⟨word, token.span, []⟩ } else g
  | .attributeName =>
    { g with staged := g.staged.map fun e =>
        { e with attributes := e.attributes ++ [⟨word, token.span, none⟩] } }
  | .attributeValue => { g with staged := g.staged.map (·.takeValue word) }
  | .endTag => g.endTag false
  | .selfCloseEndTag => g.endTag true
  | .text => g.readText word.toList
  | .error | .equals | .whitespace | .comment => g

/-- What tokens in any order amount to. -/
def ofTokens (source : String) (tokens : List Token) : Gathered :=
  (tokens.foldl (next source) {}).abandon

end Gathered

/-! ## Which elements can be placed -/

/-- What becomes of an element. -/
inductive Fate where
  | placed
  | tooDeep
  | secondRoot
  /-- It is in an element that is not placed. -/
  | inside
  deriving DecidableEq

namespace Fate

/-- What becomes of an element after others. There is room for so many open elements, and for
one root. -/
def of (limit : Nat) (before : List Fate) (e : Element) : Fate :=
  if e.around.any fun k => before[k]? != some .placed then .inside
  else if limit ≤ e.depth then .tooDeep
  else if e.around = none ∧ .placed ∈ before then .secondRoot
  else .placed

/-- What there is to be said about an element that is not placed. -/
def finding? (limit : Nat) (start : StagedElement) : Fate → Option (DiagnosticKind × String)
  | placed | inside => none
  | tooDeep => some (.nestingTooDeep, s!"limit is {limit}")
  | secondRoot => some (.multipleRoots, s!"`<{start.tag}>` is a second top-level element")

/-- The report about an element that is not placed. -/
def report? (limit : Nat) (start : StagedElement) (fate : Fate) : Option Diagnostic :=
  (fate.finding? limit start).map fun said => .report said.1 start.span said.2

end Fate

/-- What becomes of elements, one after the other. -/
def fates (limit : Nat) (elements : List Element) : List Fate :=
  elements.foldl (fun before e => before ++ [.of limit before e]) []

/-- An element is in another one, at any depth, or is that one. -/
inductive Within (elements : List Element) : Nat → Nat → Prop where
  | self {k : Nat} : k < elements.length → Within elements k k
  | up {k j i : Nat} {e : Element} :
    elements[k]? = some e → e.around = some j → Within elements j i → Within elements k i

section
variable {limit : Nat} {elements : List Element} {k : Nat} {e : Element}

theorem fates_append (limit : Nat) (elements : List Element) (e : Element) :
    fates limit (elements ++ [e]) = fates limit elements ++ [.of limit (fates limit elements) e] :=
  List.foldl_append

@[simp] theorem length_fates (limit : Nat) (elements : List Element) :
    (fates limit elements).length = elements.length := by
  induction elements using List.reverseRecOn with
  | nil => rfl
  | append_singleton elements e ih => rw [fates_append, List.length_append, List.length_append, ih]; rfl

/-- The fate of an element is settled by those before it. -/
theorem getElem?_fates (here : elements[k]? = some e) :
    (fates limit elements)[k]? = some (.of limit ((fates limit elements).take k) e) := by
  induction elements using List.reverseRecOn with
  | nil => cases here
  | append_singleton elements last ih =>
    rw [fates_append]
    rcases Nat.lt_trichotomy k elements.length with before | rfl | after
    · rw [List.getElem?_append_left before] at here
      rw [List.getElem?_append_left (by simpa using before),
        List.take_append_of_le_length (by simpa using before.le)]
      exact ih here
    · have length := length_fates limit elements
      rw [List.getElem?_append_right (Nat.le_refl _), Nat.sub_self] at here
      obtain rfl : last = e := Option.some.inj here
      rw [List.getElem?_append_right (by omega), length, Nat.sub_self,
        List.take_append_of_le_length (by omega), ← length, List.take_length]
      rfl
    · rw [List.getElem?_eq_none (by simp; omega)] at here
      cases here

/-- Elements come after those that they are in. -/
def Ordered (elements : List Element) : Prop :=
  ∀ (k : Nat) (e : Element), elements[k]? = some e → ∀ j ∈ e.around, j < k

theorem Fate.of_eq_inside_iff {before : List Fate} :
    Fate.of limit before e = .inside ↔ ∃ j, e.around = some j ∧ before[j]? ≠ some .placed := by
  have shut : (e.around.any fun k => before[k]? != some .placed) = true ↔
      ∃ j, e.around = some j ∧ before[j]? ≠ some .placed := by
    cases e.around <;> simp
  rw [← shut, Fate.of]
  split
  · simp [*]
  · split
    · simp [*]
    · split <;> simp [*]

/-- There is room for an element in placed elements. -/
theorem Fate.of_eq_placed_iff {before : List Fate} : Fate.of limit before e = .placed ↔
    (∀ j ∈ e.around, before[j]? = some .placed) ∧ e.depth < limit ∧
      (e.around = none → .placed ∉ before) := by
  have shut : (e.around.any fun k => before[k]? != some .placed) = true ↔
      ¬ ∀ j ∈ e.around, before[j]? = some .placed := by
    cases e.around <;> simp
  rw [Fate.of]
  split
  · rename_i inside
    exact iff_of_false nofun fun room => shut.mp inside room.1
  · rename_i around
    rw [shut, not_not] at around
    split
    · rename_i deep
      exact iff_of_false nofun fun room => absurd room.2.1 (Nat.not_lt.mpr deep)
    · rename_i room
      split
      · rename_i second
        exact iff_of_false nofun fun placed => placed.2.2 second.1 second.2
      · rename_i first
        exact iff_of_true rfl ⟨around, Nat.not_le.mp room, fun root placed => first ⟨root, placed⟩⟩

theorem Ordered.fate_eq_inside_iff (ordered : Ordered elements) (here : elements[k]? = some e) :
    (fates limit elements)[k]? = some .inside ↔
      ∃ j, e.around = some j ∧ (fates limit elements)[j]? ≠ some .placed := by
  rw [getElem?_fates here, Option.some.injEq, Fate.of_eq_inside_iff]
  refine exists_congr fun j => and_congr_right fun around => ?_
  rw [List.getElem?_take_of_lt (ordered k e here j around)]

/-- An element is not placed exactly if it is reported or is in one that is reported. -/
theorem Ordered.not_placed_iff (ordered : Ordered elements) (here : k < elements.length) :
    (fates limit elements)[k]? ≠ some .placed ↔ ∃ j, Within elements k j ∧
      ((fates limit elements)[j]? = some .tooDeep ∨ (fates limit elements)[j]? = some .secondRoot) := by
  -- an element comes after those that it is in, so its number falls from one to the next around it
  induction k using Nat.strongRecOn with
  | ind k ih =>
    have found := List.getElem?_eq_getElem here
    constructor
    · intro unplaced
      obtain ⟨fate, settled⟩ : ∃ fate, (fates limit elements)[k]? = some fate :=
        ⟨_, List.getElem?_eq_getElem (by simpa using here)⟩
      cases fate with
      | placed => exact absurd settled unplaced
      | tooDeep => exact ⟨k, .self here, .inl settled⟩
      | secondRoot => exact ⟨k, .self here, .inr settled⟩
      | inside =>
        obtain ⟨j, around, shut⟩ := (ordered.fate_eq_inside_iff found).mp settled
        have earlier := ordered k _ found j around
        obtain ⟨i, within, reported⟩ := (ih j earlier (by omega)).mp shut
        exact ⟨i, .up found around within, reported⟩
    · rintro ⟨i, within, reported⟩ placed
      cases within with
      | self =>
        rw [placed] at reported
        simp at reported
      | up there around within =>
        obtain rfl := Option.some.inj (found.symm.trans there)
        have earlier := ordered k _ found _ around
        have shut := (ih _ earlier (by omega)).mpr ⟨i, within, reported⟩
        rw [(ordered.fate_eq_inside_iff found).mpr ⟨_, around, shut⟩] at placed
        cases placed

end

/-! ## How the elements lie -/

namespace Gathered

/-- The open elements stand one in the other, each as deep as there are others around it. -/
def Opens (elements : List Element) : List Nat → Prop
  | [] => True
  | k :: rest => (∃ e, elements[k]? = some e ∧ e.around = rest.head? ∧ e.depth = rest.length) ∧
      Opens elements rest

structure Laid (g : Gathered) : Prop where
  ordered : Ordered g.elements
  opens : Opens g.elements g.stack
  texts : ∀ p ∈ g.texts, p.1 < g.elements.length

section
variable {g : Gathered} {elements : List Element} {stack : List Nat}

theorem Opens.append (h : Opens elements stack) (e : Element) : Opens (elements ++ [e]) stack := by
  induction stack with
  | nil => trivial
  | cons k rest ih =>
    obtain ⟨⟨own, here, lies⟩, below⟩ := h
    have inside := (List.getElem?_eq_some_iff.mp here).1
    exact ⟨⟨own, by rw [List.getElem?_append_left inside, here], lies⟩, ih below⟩

theorem Opens.lt (h : Opens elements stack) : ∀ k ∈ stack, k < elements.length := by
  induction stack with
  | nil => simp
  | cons k rest ih =>
    obtain ⟨⟨own, here, -⟩, below⟩ := h
    exact List.forall_mem_cons.mpr ⟨(List.getElem?_eq_some_iff.mp here).1, ih below⟩

theorem Opens.head_lt (h : Opens elements stack) {k : Nat} (top : stack.head? = some k) :
    k < elements.length := h.lt k (List.mem_of_mem_head? top)

theorem Opens.tail (h : Opens elements stack) : Opens elements stack.tail := by
  cases stack with
  | nil => trivial
  | cons k rest => exact h.2

/-- Only what lies where matters. -/
theorem Laid.congr (h : g.Laid) {g' : Gathered} (elements : g'.elements = g.elements)
    (stack : g'.stack = g.stack) (texts : g'.texts = g.texts) : g'.Laid :=
  ⟨elements ▸ h.ordered, by rw [elements, stack]; exact h.opens, by rw [elements, texts]; exact h.texts⟩

theorem Laid.enter (h : g.Laid) (start : StagedElement) (selfClosing : Bool) :
    (g.enter start selfClosing).Laid := by
  have opens := h.opens.append ⟨start, g.stack.head?, g.stack.length⟩
  refine ⟨fun k e here j around => ?_, ?_, fun p hp => ?_⟩
  · rw [Gathered.enter, List.getElem?_append] at here
    split at here
    · exact h.ordered k e here j around
    · rw [List.getElem?_singleton] at here
      split at here
      · cases here
        have := h.opens.head_lt around
        omega
      · cases here
  · cases selfClosing with
    | true => exact opens
    | false =>
      refine ⟨⟨⟨start, g.stack.head?, g.stack.length⟩, ?_, rfl, rfl⟩, opens⟩
      rw [Gathered.enter, List.getElem?_append_right (Nat.le_refl _), Nat.sub_self]
      rfl
  · have earlier := h.texts p hp
    simp only [Gathered.enter, List.length_append, List.length_singleton]
    omega

theorem Laid.abandon (h : g.Laid) : g.abandon.Laid := by
  have closed : { g with inTag := false, staged := none }.Laid := h.congr rfl rfl rfl
  unfold Gathered.abandon
  dsimp only
  split
  · exact closed.enter _ true
  · exact closed

theorem Laid.endTag (h : g.Laid) (selfClosing : Bool) : (g.endTag selfClosing).Laid := by
  suffices left : (g.leave selfClosing).Laid from left.congr rfl rfl rfl
  unfold leave
  split
  · exact ⟨h.ordered, h.opens.tail, h.texts⟩
  · split
    · have unstaged : { g with staged := none }.Laid := h.congr rfl rfl rfl
      exact unstaged.enter _ selfClosing
    · exact h

theorem readText_keeps (g : Gathered) (chars : List Char) : (g.readText chars).elements = g.elements ∧
    (g.readText chars).stack = g.stack ∧ (g.readText chars).phase = g.phase ∧
    (g.readText chars).inTag = g.inTag ∧ (g.readText chars).staged = g.staged := by
  unfold readText
  split <;> exact ⟨rfl, rfl, rfl, rfl, rfl⟩

theorem Laid.readText (h : g.Laid) (chars : List Char) : (g.readText chars).Laid := by
  unfold Gathered.readText
  split
  · exact h
  · refine ⟨h.ordered, h.opens, fun p hp => ?_⟩
    rcases List.mem_append.mp hp with old | new
    · exact h.texts p old
    · obtain ⟨k, top, rfl⟩ := List.mem_map.mp new
      exact h.opens.head_lt (Option.mem_toList.mp top)

theorem Laid.next (h : g.Laid) (source : String) (token : Token) : (g.next source token).Laid := by
  unfold Gathered.next
  dsimp only
  split
  · exact h.abandon.congr rfl rfl rfl
  · exact h.abandon.congr rfl rfl rfl
  · split
    · exact h.congr rfl rfl rfl
    · exact h
  · exact h.congr rfl rfl rfl
  · exact h.congr rfl rfl rfl
  · exact h.endTag false
  · exact h.endTag true
  · exact h.readText _
  all_goals exact h

theorem laid_nil : ({} : Gathered).Laid :=
  ⟨fun k e here => by simp at here, trivial, fun p hp => by simp at hp⟩

theorem laid_ofTokens (source : String) (tokens : List Token) : (ofTokens source tokens).Laid :=
  (List.foldlRecOn tokens (next source) laid_nil fun _ h token _ => h.next source token).abandon

/-! ## How many elements there are -/

/-- How many elements there may be, with the start tag that is read. -/
def size (g : Gathered) : Nat := g.elements.length + if g.staged.isSome then 1 else 0

theorem size_enter (start : StagedElement) (selfClosing : Bool) :
    (g.enter start selfClosing).size = g.size + 1 := by
  simp only [enter, size, List.length_append, List.length_singleton]
  exact Nat.add_right_comm _ _ _

theorem size_abandon (g : Gathered) : g.abandon.size = g.size := by
  unfold abandon
  dsimp only
  split
  · rename_i start staged
    rw [size_enter]
    simp [size, staged]
  · rename_i staged
    simp [size, staged]

theorem size_leave (g : Gathered) (selfClosing : Bool) : (g.leave selfClosing).size = g.size := by
  unfold leave
  split
  · rfl
  · split
    · rename_i start staged
      rw [size_enter]
      simp [size, staged]
    · rfl

/-- Only the name of a tag can start another element. -/
theorem size_next (source : String) (g : Gathered) (token : Token) :
    (g.next source token).size ≤ g.size + if token.kind = .tagName then 1 else 0 := by
  have kept {g' : Gathered} (same : g'.size = g.size) :
      g'.size ≤ g.size + if token.kind = .tagName then 1 else 0 := same.trans_le (Nat.le_add_right _ _)
  unfold next
  dsimp only
  split
  · exact kept (size_abandon g)
  · exact kept (size_abandon g)
  · rename_i kind
    rw [if_pos kind]
    split
    · simp only [size, Option.isSome_some, ↓reduceIte]
      omega
    · exact Nat.le_add_right _ _
  · exact kept (by simp only [size, Option.isSome_map])
  · exact kept (by simp only [size, Option.isSome_map])
  · exact kept (size_leave g false)
  · exact kept (size_leave g true)
  · refine kept ?_
    unfold readText
    split <;> rfl
  all_goals exact kept rfl

/-- There are no more elements than names of tags. -/
theorem length_elements_le (source : String) (tokens : List Token) :
    (ofTokens source tokens).elements.length ≤ tokens.countP (·.kind = .tagName) := by
  have sizes (g : Gathered) : (tokens.foldl (next source) g).size ≤
      g.size + tokens.countP (·.kind = .tagName) := by
    induction tokens generalizing g with
    | nil => exact Nat.le_refl _
    | cons token tokens ih =>
      have one := g.size_next source token
      have rest := ih (g.next source token)
      rw [List.foldl_cons, List.countP_cons]
      simp only [decide_eq_true_eq]
      omega
  calc (ofTokens source tokens).elements.length
    _ ≤ (ofTokens source tokens).size := Nat.le_add_right _ _
    _ = (tokens.foldl (next source) {}).size := size_abandon _
    _ ≤ ({} : Gathered).size + tokens.countP (·.kind = .tagName) := sizes {}
    _ = tokens.countP (·.kind = .tagName) := Nat.zero_add _

end

end Gathered

end QueryMarkup
