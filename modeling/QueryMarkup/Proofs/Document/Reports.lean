import QueryMarkup.Proofs.Document.Steps

/-!
# Reports stay

Reading never takes a diagnostic back. So where the last report says nothing of one kind,
no step before has reported it.
-/
namespace QueryMarkup

/-- Findings after which it is open what the text says. -/
def obscuring : List DiagnosticKind :=
  [.syntaxError, .unclosedTag, .unexpectedCloseTag, .multipleRoots, .nestingTooDeep,
    .missingAttributeValue]

namespace Builder

/-- All that was reported stays reported. -/
def Grows (b b' : Builder) : Prop := b.diagnostics ⊆ b'.diagnostics

/-- Nothing was reported after which it is open what the text says. -/
def Clean (b : Builder) : Prop := ∀ d ∈ b.diagnostics, d.kind ∉ obscuring

section
variable {b b' b'' : Builder} {t : Tree}

theorem Grows.refl (b : Builder) : b.Grows b := List.Subset.refl _

theorem Grows.trans (h : b.Grows b') (h' : b'.Grows b'') : b.Grows b'' := List.Subset.trans h h'

theorem Clean.of_grows (h : b'.Clean) (g : b.Grows b') : b.Clean := fun d hd => h d (g hd)

theorem grows_report (b : Builder) (kind : DiagnosticKind) (span : Text.Range) (detail : Option String) :
    b.Grows (b.report kind span detail) := List.subset_append_left _ _

/-- What has been reported is not clean when its kind obscures. -/
theorem not_clean_report {kind : DiagnosticKind} (h : kind ∈ obscuring) {span : Text.Range}
    {detail : Option String} : ¬ (b.report kind span detail).Clean := fun clean =>
  clean (.report kind span detail) (List.mem_append_right _ List.mem_cons_self) h

theorem grows_foldl {α : Type} {step : Builder → α → Builder}
    (h : ∀ (b : Builder) x, b.Grows (step b x))
    (b : Builder) (xs : List α) : b.Grows (xs.foldl step b) := by
  induction xs generalizing b with
  | nil => exact .refl b
  | cons x xs ih => exact (h b x).trans (ih (step b x))

theorem grows_push (b : Builder) (element : OpenElement) (selfClosing : Bool) :
    b.Grows (b.push element selfClosing) := by
  unfold push
  split <;> exact .refl b

theorem grows_named (b : Builder) (seen : List String) (a : StagedAttribute) : b.Grows (b.named seen a) := by
  unfold named
  split
  · exact grows_report b _ _ _
  · exact .refl b

theorem grows_readAttribute (id : NodeId) (s : Builder × Tree × List String) (a : StagedAttribute) :
    s.1.Grows (readAttribute id s a).1 := by
  obtain ⟨b, t, seen⟩ := s
  have first := b.grows_named seen a
  cases readAttribute_outcome id b t seen a with
  | missing _ read => exact read ▸ first.trans (grows_report _ _ _ _)
  | lost _ _ read => exact read ▸ first
  | stored _ _ read => exact read ▸ first.trans (grows_foldl (fun b i => grows_report b _ _ _) _ _)

theorem grows_readAttributes (id : NodeId) (s : Builder × Tree × List String)
    (attributes : List StagedAttribute) :
    s.1.Grows (attributes.foldl (readAttribute id) s).1 := by
  induction attributes generalizing s with
  | nil => exact .refl _
  | cons a attributes ih => exact (grows_readAttribute id s a).trans (ih _)

theorem grows_placing (b : Builder) (t : Tree) (e : StagedElement) : b.Grows (b.placing t e) :=
  grows_foldl (fun b _ => grows_report b _ _ _) b _

theorem grows_finalize (b : Builder) (t : Tree) (element : StagedElement) (selfClosing : Bool) :
    b.Grows (b.finalize t element selfClosing).1 := by
  cases b.finalize_outcome t element selfClosing with
  | skipped _ made => exact made ▸ grows_push b _ _
  | refused _ made => exact made ▸ (grows_report b _ _ _).trans (grows_push _ _ _)
  | lost _ _ made => exact made ▸ (b.grows_placing t element).trans (grows_push _ _ _)
  | added _ _ made =>
    rw [made]
    refine Grows.trans ?_ (grows_push _ _ _)
    intro d hd
    exact grows_readAttributes _ _ _ (b.grows_placing t element hd)

theorem grows_abandon (b : Builder) (t : Tree) : b.Grows (b.abandon t).1 := by
  have reported (span : Text.Range) (detail : String) :
      b.Grows (({ b with tagOpen := none, staged := none } : Builder).report .syntaxError span detail) :=
    grows_report { b with tagOpen := none, staged := none } _ _ _
  cases b.abandon_outcome t with
  | element _ broken => exact broken ▸ (reported _ _).trans (grows_finalize _ _ _ _)
  | nothing _ _ broken => exact broken ▸ .refl b
  | nameless _ _ _ broken => exact broken ▸ reported _ _

/-- What is abandoned is reported. -/
theorem not_clean_abandon (h : b.tagOpen.isSome = true) : ¬ (b.abandon t).1.Clean := by
  cases b.abandon_outcome t with
  | element _ broken =>
    rw [broken]
    exact fun clean => not_clean_report (by decide) (clean.of_grows (grows_finalize _ _ _ _))
  | nothing _ tagOpen _ =>
    rw [tagOpen] at h
    cases h
  | nameless _ _ _ broken =>
    rw [broken]
    exact not_clean_report (by decide)

theorem grows_close (b : Builder) (stop : Text.Range) : b.Grows (b.close stop) := by
  cases stack : b.stack with
  | nil => exact close_nil stack stop ▸ grows_report b _ _ _
  | cons o outer => exact close_cons stack stop ▸ .refl b

theorem grows_readValue (b : Builder) (span : Text.Range) (raw : String) :
    b.Grows (b.readValue span raw) := by
  cases b.readValue_outcome span raw with
  | unstaged _ read => exact read.symm ▸ .refl b
  | taken _ _ read => exact read ▸ .refl b
  | stray _ read => exact read ▸ grows_report b _ _ _

theorem grows_endTag (b : Builder) (t : Tree) (span : Text.Range) (selfClosing : Bool) :
    b.Grows (b.endTag t span selfClosing).1 := by
  cases b.endTag_outcome t span selfClosing with
  | close _ ended => exact ended ▸ grows_close b span
  | element _ _ ended => exact ended ▸ grows_finalize { b with staged := none } _ _ _
  | nameless _ _ _ ended => exact ended ▸ grows_report b _ _ _
  | nothing _ _ _ ended => exact ended ▸ .refl b

theorem grows_readText (b : Builder) (t : Tree) (span : Text.Range) (text : List Char) :
    b.Grows (b.readText t span text).1 := by
  cases b.readText_outcome t span text with
  | ignored read => exact read ▸ .refl b
  | unexpected read => exact read ▸ grows_report b _ _ _
  | stored _ _ _ read => exact read ▸ .refl b

theorem grows_feed (b : Builder) (t : Tree) (source : String) (token : Token) :
    b.Grows (b.feed t ⟨.textToTree⟩ source token).1 := by
  cases b.feed_outcome t source token with
  | starts _ fed => exact fed ▸ grows_abandon b t
  | tagName _ _ _ fed => exact fed ▸ .refl b
  | attributeName _ _ fed => exact fed ▸ .refl b
  | attributeValue fed => exact fed ▸ grows_readValue b _ _
  | ends _ fed => exact fed ▸ grows_endTag b t _ _
  | text fed => exact fed ▸ grows_readText b t _ _
  | error _ fed => exact fed ▸ grows_report b _ _ _
  | passed fed => exact fed ▸ .refl b

/-- Reads tokens into a tree. -/
def readAll (source : String) (s : Builder × Tree) (tokens : List Token) : Builder × Tree :=
  tokens.foldl (fun s token => s.1.feed s.2 ⟨.textToTree⟩ source token) s

@[simp] theorem readAll_nil (source : String) (s : Builder × Tree) : readAll source s [] = s := rfl

@[simp] theorem readAll_cons (source : String) (s : Builder × Tree) (token : Token)
    (tokens : List Token) : readAll source s (token :: tokens) =
      readAll source (s.1.feed s.2 ⟨.textToTree⟩ source token) tokens := rfl

theorem readAll_append (source : String) (s : Builder × Tree) (xs ys : List Token) :
    readAll source s (xs ++ ys) = readAll source (readAll source s xs) ys := List.foldl_append

theorem grows_readAll (source : String) (s : Builder × Tree) (tokens : List Token) :
    s.1.Grows (readAll source s tokens).1 := by
  induction tokens generalizing s with
  | nil => exact .refl _
  | cons token tokens ih => exact (grows_feed s.1 s.2 source token).trans (ih _)

/-- Reading has ended, and nothing obscures what the text says. -/
def EndsClean (s : Builder × Tree) : Prop :=
  ∀ d ∈ (s.1.finish s.2 ⟨.textToTree⟩).1, d.kind ∉ obscuring

theorem finish_fst (b : Builder) (t : Tree) : (b.finish t ⟨.textToTree⟩).1 =
    ((b.abandon t).1.stack.reverse.foldl (fun (b : Builder) e => b.report .unclosedTag e.span e.tag)
      { (b.abandon t).1 with stack := [] }).diagnostics := rfl

theorem finish_tree (b : Builder) (t : Tree) : (b.finish t ⟨.textToTree⟩).2.2 = (b.abandon t).2 := rfl

/-- What was reported is handed over. -/
theorem diagnostics_subset_finish (b : Builder) (t : Tree) :
    b.diagnostics ⊆ (b.finish t ⟨.textToTree⟩).1 := by
  rw [finish_fst]
  have kept := @grows_foldl OpenElement (fun (b : Builder) e => b.report .unclosedTag e.span e.tag)
    (fun b e => grows_report b _ _ _)
  exact (grows_abandon b t).trans (kept { (b.abandon t).1 with stack := [] } _)

theorem EndsClean.abandon {s : Builder × Tree} (h : EndsClean s) : (s.1.abandon s.2).1.Clean :=
  fun d hd => h d (by
    rw [finish_fst]
    have kept := @grows_foldl OpenElement (fun (b : Builder) e => b.report .unclosedTag e.span e.tag)
      (fun b e => grows_report b _ _ _)
    exact kept { (s.1.abandon s.2).1 with stack := [] } _ hd)

theorem EndsClean.clean {s : Builder × Tree} (h : EndsClean s) : s.1.Clean :=
  fun d hd => h d (diagnostics_subset_finish s.1 s.2 hd)

/-- Where reading ends clean, every step before was clean. -/
theorem EndsClean.before {source : String} {s : Builder × Tree} {tokens : List Token}
    (h : EndsClean (readAll source s tokens)) : s.1.Clean :=
  h.clean.of_grows (grows_readAll source s tokens)

end

end Builder

end QueryMarkup
