import Mathlib.Data.List.Induction
import QueryMarkup.Markup.Token
import QueryMarkup.Text.Position

/-!
# Tags as brackets

A start tag that has a name and ends with `>` opens a bracket, a close tag that ends closes
one, whatever its name. Other tags are no brackets: those that close themselves, those
without a name, and those that run into the next tag or into the end of the text. Every
sequence of brackets falls in one way into balanced parts, the closing brackets that nothing was open
for, and the opening brackets that nothing closed.
-/
namespace QueryMarkup

/-- Tokens with which a tag begins or ends. -/
def TokenKind.bounds : TokenKind → Bool
  | .startTag | .startCloseTag | .endTag | .selfCloseEndTag => true
  | _ => false

namespace Markup

open Text

inductive Bracket where
  /-- A start tag, with the place of its name. -/
  | opening (tag : String) (span : Range)
  /-- A close tag, from its `</` to its end. -/
  | closing (span : Range)
  deriving DecidableEq

/-- The bracket that a tag is, from its `<` or `</`, its name and its place, and the token with which
it ends or at which it breaks off. -/
def Bracket.ofTag? (start : Token) (name : Option (String × Range)) (stop : Token) : Option Bracket :=
  match start.kind, stop.kind with
  | .startTag, .endTag => name.map fun (tag, span) => .opening tag span
  | .startCloseTag, .endTag | .startCloseTag, .selfCloseEndTag =>
    some (.closing (start.span.cover stop.span))
  | _, _ => none

/-- The token with which a tag ends or at which it breaks off. `rest` is what follows its `<` or `</`. -/
def bound? (rest : List Token) : Option Token := rest.find? (·.kind.bounds)

/-- The name of a tag and its place. A tag that was read from a text has one name at most. -/
def named? (source : String) (rest : List Token) : Option (String × Range) :=
  ((rest.takeWhile (!·.kind.bounds)).filter (·.kind = .tagName)).getLast?.map fun name =>
    (slice source name.span, name.span)

/-- The bracket that begins with a token. -/
def bracket? (source : String) (token : Token) (rest : List Token) : Option Bracket :=
  (bound? rest).bind (Bracket.ofTag? token (named? source rest))

/-- The tags among some tokens that are brackets. -/
def brackets (source : String) : List Token → List Bracket
  | [] => []
  | token :: rest => (bracket? source token rest).toList ++ brackets source rest

section
variable {source : String} {start stop token : Token} {rest : List Token}

/-- A tag is no bracket if the next one begins before it ends. -/
theorem Bracket.ofTag?_broken (start : Token) (name : Option (String × Range))
    (kind : stop.kind = .startTag ∨ stop.kind = .startCloseTag) : ofTag? start name stop = none := by
  unfold ofTag?
  obtain kind | kind := kind <;> rw [kind] <;> cases start.kind <;> rfl

/-- A start tag opens nothing if it has no name. -/
theorem Bracket.ofTag?_unnamed (span : Range) (stop : Token) : ofTag? ⟨.startTag, span⟩ none stop = none := by
  unfold ofTag?
  cases stop.kind <;> rfl

/-- A start tag with a name opens a bracket if it does not close itself. -/
theorem Bracket.ofTag?_opening (span : Range) (name : String × Range)
    (kind : stop.kind = .endTag ∨ stop.kind = .selfCloseEndTag) : ofTag? ⟨.startTag, span⟩ (some name) stop =
      if stop.kind == .selfCloseEndTag then none else some (.opening name.1 name.2) := by
  unfold ofTag?
  obtain kind | kind := kind <;> rw [kind] <;> rfl

theorem Bracket.ofTag?_closing (span : Range) (name : Option (String × Range))
    (kind : stop.kind = .endTag ∨ stop.kind = .selfCloseEndTag) :
    ofTag? ⟨.startCloseTag, span⟩ name stop = some (.closing (span.cover stop.span)) := by
  unfold ofTag?
  obtain kind | kind := kind <;> rw [kind]

/-- A close tag closes whatever its name. -/
theorem Bracket.ofTag?_nameless (span : Range) (name name' : Option (String × Range)) :
    ofTag? ⟨.startCloseTag, span⟩ name = ofTag? ⟨.startCloseTag, span⟩ name' := by
  funext stop
  unfold ofTag?
  cases stop.kind <;> rfl

theorem bracket?_startless (kind : token.kind ≠ .startTag) (kind' : token.kind ≠ .startCloseTag) :
    bracket? source token rest = none := by
  rw [bracket?, Option.bind_eq_none_iff]
  intro stop _
  unfold Bracket.ofTag?
  split <;> trivial

theorem bound?_bound (bounds : token.kind.bounds = true) : bound? (token :: rest) = some token :=
  List.find?_cons_of_pos bounds

/-- A token inside a tag leaves the tag to end where it did. -/
theorem bound?_inner (inner : token.kind.bounds = false) : bound? (token :: rest) = bound? rest :=
  List.find?_cons_of_neg (Bool.eq_false_iff.mp inner)

theorem named?_bound (bounds : token.kind.bounds = true) : named? source (token :: rest) = none := by
  simp [named?, bounds]

theorem named?_inner (inner : token.kind.bounds = false) (unnamed : token.kind ≠ .tagName) :
    named? source (token :: rest) = named? source rest := by
  simp [named?, inner, unnamed]

theorem named?_name (kind : token.kind = .tagName) : named? source (token :: rest) =
    (named? source rest).or (some (slice source token.span, token.span)) := by
  have inner : token.kind.bounds = false := by rw [kind]; rfl
  unfold named?
  rw [List.takeWhile_cons_of_pos (by rw [inner]; rfl), List.filter_cons_of_pos (by simpa using kind),
    List.getLast?_cons]
  generalize List.getLast? _ = last
  cases last <;> rfl

end

/-! ## Balanced sequences -/

inductive Balanced : List Bracket → Prop where
  | nil : Balanced []
  | around {xs ys : List Bracket} (tag : String) (name span : Range) :
      Balanced xs → Balanced ys → Balanced (.opening tag name :: (xs ++ .closing span :: ys))

/-- What a sequence leaves without a partner. As soon as an opening bracket is left, every
closing bracket has a partner. -/
inductive Unmatched : List Bracket → (strays : List Range) → (left : List (String × Range)) → Prop where
  | balanced {bs : List Bracket} : Balanced bs → Unmatched bs [] []
  | stray {bs rest : List Bracket} {strays : List Range} {left : List (String × Range)} (span : Range) :
      Balanced bs → Unmatched rest strays left →
      Unmatched (bs ++ .closing span :: rest) (span :: strays) left
  | left {bs rest : List Bracket} {left : List (String × Range)} (tag : String) (name : Range) :
      Balanced bs → Unmatched rest [] left →
      Unmatched (bs ++ .opening tag name :: rest) [] ((tag, name) :: left)

section
variable {bs xs ys : List Bracket} {strays : List Range} {left : List (String × Range)}

theorem Balanced.append (hx : Balanced xs) (hy : Balanced ys) : Balanced (xs ++ ys) := by
  induction hx with
  | nil => exact hy
  | around tag name span inner _ _ ih =>
    rw [List.cons_append, List.append_assoc, List.cons_append]
    exact .around tag name span inner ih

theorem Balanced.wrap (tag : String) (name span : Range) (inner : Balanced xs) :
    Balanced (.opening tag name :: (xs ++ [.closing span])) :=
  .around tag name span inner .nil

theorem Unmatched.toBalanced (h : Unmatched bs [] []) : Balanced bs := by
  cases h
  assumption

/-! ## Matching with a stack -/

/-- Brackets that were read: the closing ones without a partner, and the opening ones
that still wait for theirs, the innermost first. -/
structure Matching where
  strays : List Range := []
  stack : List (String × Range) := []

namespace Matching

def next (m : Matching) : Bracket → Matching
  | .opening tag name => { m with stack := (tag, name) :: m.stack }
  | .closing span =>
    match m.stack with
    | _ :: rest => { m with stack := rest }
    | [] => { m with strays := m.strays ++ [span] }

def run (m : Matching) (bs : List Bracket) : Matching := bs.foldl next m

@[simp] theorem run_nil (m : Matching) : m.run [] = m := rfl

@[simp] theorem run_cons (m : Matching) (x : Bracket) (bs : List Bracket) :
    m.run (x :: bs) = (m.next x).run bs := rfl

@[simp] theorem run_append (m : Matching) (xs ys : List Bracket) :
    m.run (xs ++ ys) = (m.run xs).run ys := List.foldl_append

end Matching

/-- A balanced sequence leaves the stack as it is. -/
theorem Balanced.run (h : Balanced bs) (m : Matching) : m.run bs = m := by
  induction h generalizing m with
  | nil => rfl
  | around tag name span inner more ihx ihy =>
    rw [Matching.run_cons, Matching.run_append, ihx, Matching.run_cons, ihy]
    rfl

theorem Unmatched.run (h : Unmatched bs strays left) (m : Matching)
    (bottom : strays = [] ∨ m.stack = []) :
    m.run bs = ⟨m.strays ++ strays, left.reverse ++ m.stack⟩ := by
  induction h generalizing m with
  | balanced even =>
    rw [even.run, List.append_nil]
    rfl
  | stray span even _ ih =>
    have empty : m.stack = [] := bottom.resolve_left (List.cons_ne_nil _ _)
    have next : m.next (.closing span) = ⟨m.strays ++ [span], []⟩ := by
      rw [Matching.next, empty]
    rw [Matching.run_append, even.run, Matching.run_cons, next, ih _ (.inr rfl), empty,
      List.append_assoc]
    rfl
  | left tag name even _ ih =>
    rw [Matching.run_append, even.run, Matching.run_cons, ih _ (.inl rfl), List.reverse_cons,
      List.append_assoc]
    rfl

/-! ## Every sequence falls into parts -/

theorem Unmatched.snoc_opening (h : Unmatched bs strays left) (tag : String) (name : Range) :
    Unmatched (bs ++ [.opening tag name]) strays (left ++ [(tag, name)]) := by
  induction h with
  | balanced even => exact .left tag name even (.balanced .nil)
  | stray span even _ ih =>
    rw [List.append_assoc]
    exact .stray span even ih
  | left tag' name' even _ ih =>
    rw [List.append_assoc]
    exact .left tag' name' even ih

/-- A closing bracket where nothing is open. -/
theorem Unmatched.snoc_stray (h : Unmatched bs strays []) (span : Range) :
    Unmatched (bs ++ [.closing span]) (strays ++ [span]) [] := by
  generalize closed : ([] : List (String × Range)) = left at h
  induction h with
  | balanced even => exact .stray span even (.balanced .nil)
  | stray span' even _ ih =>
    rw [List.append_assoc]
    exact .stray span' even (ih closed)
  | left => cases closed

/-- A closing bracket takes the last that is open. -/
theorem Unmatched.snoc_partner {x : String × Range} (h : Unmatched bs strays (left ++ [x]))
    (span : Range) : Unmatched (bs ++ [.closing span]) strays left := by
  generalize all : left ++ [x] = opened at h
  induction h generalizing left with
  | balanced => simp at all
  | stray span' even _ ih =>
    rw [List.append_assoc]
    exact .stray span' even (ih all)
  | left tag name even rest ih =>
    rw [List.append_assoc]
    cases left with
    | nil =>
      obtain ⟨-, rfl⟩ := List.cons.inj all
      exact .balanced (even.append (rest.toBalanced.wrap tag name span))
    | cons y left =>
      obtain ⟨rfl, more⟩ := List.cons.inj all
      exact .left tag name even (ih more)

/-- What the stack makes of a sequence is what the sequence leaves without a partner. -/
theorem unmatched_run (bs : List Bracket) :
    let m := Matching.run {} bs
    Unmatched bs m.strays m.stack.reverse := by
  induction bs using List.reverseRecOn with
  | nil => exact .balanced .nil
  | append_singleton bs b ih =>
    dsimp only at ih ⊢
    rw [Matching.run_append]
    generalize Matching.run {} bs = m at ih ⊢
    obtain ⟨strays, stack⟩ := m
    cases b with
    | opening tag name =>
      have snoc := ih.snoc_opening tag name
      rwa [← List.reverse_cons] at snoc
    | closing span =>
      cases stack with
      | nil => exact ih.snoc_stray span
      | cons x stack =>
        rw [List.reverse_cons] at ih
        exact ih.snoc_partner span

theorem Unmatched.unique {strays' : List Range} {left' : List (String × Range)}
    (h : Unmatched bs strays left) (h' : Unmatched bs strays' left') : strays' = strays ∧ left' = left := by
  have run := (h'.run {} (.inr rfl)).symm.trans (h.run {} (.inr rfl))
  rw [List.append_nil, List.append_nil] at run
  obtain ⟨rfl, same⟩ := Matching.mk.inj run
  exact ⟨rfl, List.reverse_inj.mp same⟩

/-- A sequence is balanced if every bracket has a partner. -/
theorem Unmatched.balanced_iff (h : Unmatched bs strays left) : Balanced bs ↔ strays = [] ∧ left = [] := by
  constructor
  · intro even
    obtain ⟨rfl, rfl⟩ := (Unmatched.balanced even).unique h
    exact ⟨rfl, rfl⟩
  · rintro ⟨rfl, rfl⟩
    exact h.toBalanced

end

end Markup

end QueryMarkup
