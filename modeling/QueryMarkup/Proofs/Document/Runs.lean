import QueryMarkup.Proofs.Document.Reports
import QueryMarkup.Proofs.Tree.Change

/-!
# Runs

A tree is reached by edits and by reading texts. Reading a text is itself a run of
edits that also records where names stand, so what every such step keeps is kept by
reading, and holds of every tree that is reached.
-/
namespace QueryMarkup

/-- Where no other pass is running, tokens are read and the pass is over again. -/
theorem Document.parseTokens_idle (t : Tree) (tokens : List Token) (source : String)
    (settings : Settings) : parseTokens t tokens source {} settings =
      (orDefault (readTokens t tokens source settings).1, (readTokens t tokens source settings).2, {}) :=
  rfl

/-- The trees that edits and reading lead to from a tree without nodes. -/
inductive Tree.Reached (desk : Option Desk) : Tree → Prop where
  | new : Reached desk (.new desk)
  | edit {t : Tree} (edit : Edit) : Reached desk t → Reached desk (t.edit edit)
  | parse {t : Tree} (source : String) (settings : Settings) :
    Reached desk t → Reached desk (Document.parse t source settings).1

/-- A property of trees that reading a text keeps once it holds of the cleared tree. No
inquiry is answered while a text is read. -/
structure Tree.Readable (P : Tree → Prop) : Prop where
  edited : ∀ (t : Tree) (e : Edit), (∀ number verdict, e ≠ .resolve number verdict) → P t → P (t.edit e)
  setSpan : ∀ (t : Tree) id span, P t → P (t.setSpan id span)
  setAttributeSpan : ∀ (t : Tree) id name span, P t → P (t.setAttributeSpan id name span)

/-- A property of trees that every change keeps, and that does not depend on where names
stand in a text. -/
structure Tree.Invariant (P : Tree → Prop) : Prop extends Tree.Readable P where
  change : ∀ {t t'}, Change t t' → P t → P t'
  edited := fun t e _ h => (t.edit_changes e).keep change h

namespace Tree.Readable

variable {P : Tree → Prop} (readable : Tree.Readable P) {t t' : Tree}

include readable

theorem addParsed {kind : Kind} {tag : String} {parent : Option NodeId} {id : NodeId} (h : P t)
    (e : t.addParsed kind tag parent = .ok (t', id)) : P t' := by
  have kept := readable.edited t (.addParsed kind tag parent) (fun _ _ => nofun) h
  rwa [Tree.edit, Tree.perform, e] at kept

theorem insertParsed {id : NodeId} {name value : String} {issues : List StructuralIssue} (h : P t)
    (e : t.insertParsed id name value = .ok (t', issues)) : P t' := by
  have kept := readable.edited t (.insertParsed id name value) (fun _ _ => nofun) h
  rwa [Tree.edit, Tree.perform, e] at kept

theorem readAttribute {id : NodeId} {s : Builder × Tree × List String} (a : StagedAttribute)
    (h : P s.2.1) : P (Builder.readAttribute id s a).2.1 := by
  obtain ⟨b, t, seen⟩ := s
  cases Builder.readAttribute_outcome id b t seen a with
  | missing _ read => exact read ▸ h
  | lost _ _ read => exact read ▸ h
  | stored _ inserted read =>
    exact read ▸ readable.setAttributeSpan _ _ _ _ (readable.insertParsed h inserted)

theorem readAttributes {id : NodeId} {s : Builder × Tree × List String}
    (attributes : List StagedAttribute) (h : P s.2.1) :
    P (attributes.foldl (Builder.readAttribute id) s).2.1 := by
  induction attributes generalizing s with
  | nil => exact h
  | cons a attributes ih => exact ih (readable.readAttribute a h)

theorem finalize (b : Builder) (element : StagedElement) (selfClosing : Bool) (h : P t) :
    P (b.finalize t element selfClosing).2 := by
  cases b.finalize_outcome t element selfClosing with
  | skipped _ made => exact made ▸ h
  | refused _ made => exact made ▸ h
  | lost _ _ made => exact made ▸ h
  | added _ added made =>
    exact made ▸ readable.readAttributes _ (readable.setSpan _ _ _ (readable.addParsed h added))

theorem abandon (b : Builder) (h : P t) : P (b.abandon t).2 := by
  cases b.abandon_outcome t with
  | element _ broken => exact broken ▸ readable.finalize _ _ _ h
  | nothing _ _ broken => exact broken ▸ h
  | nameless _ _ _ broken => exact broken ▸ h

theorem endTag (b : Builder) (span : Text.Range) (selfClosing : Bool) (h : P t) :
    P (b.endTag t span selfClosing).2 := by
  cases b.endTag_outcome t span selfClosing with
  | close _ ended => exact ended ▸ h
  | element _ _ ended => exact ended ▸ readable.finalize _ _ _ h
  | nameless _ _ _ ended => exact ended ▸ h
  | nothing _ _ _ ended => exact ended ▸ h

theorem readText (b : Builder) (span : Text.Range) (text : List Char) (h : P t) :
    P (b.readText t span text).2 := by
  cases b.readText_outcome t span text with
  | ignored read => exact read ▸ h
  | unexpected read => exact read ▸ h
  | stored _ _ inserted read => exact read ▸ readable.insertParsed h inserted

theorem feed (b : Builder) (source : String) (token : Token) (h : P t) :
    P (b.feed t ⟨.textToTree⟩ source token).2 := by
  cases b.feed_outcome t source token with
  | starts _ fed => exact fed ▸ readable.abandon b h
  | tagName _ _ _ fed => exact fed ▸ h
  | attributeName _ _ fed => exact fed ▸ h
  | attributeValue fed => exact fed ▸ h
  | ends _ fed => exact fed ▸ readable.endTag b _ _ h
  | text fed => exact fed ▸ readable.readText b _ _ h
  | error _ fed => exact fed ▸ h
  | passed fed => exact fed ▸ h

theorem finish (b : Builder) (h : P t) : P (b.finish t ⟨.textToTree⟩).2.2 :=
  readable.abandon b h

theorem readTokens (tokens : List Token) (source : String) (settings : Settings)
    (cleared : P t.clear) : P (Document.readTokens t tokens source settings).1 := by
  have fed : P (Builder.readAll source ({ limit := settings.nestingLimit }, t.clear) tokens).2 :=
    List.foldlRecOn (motive := fun s : Builder × Tree => P s.2) tokens _ cleared
      fun s kept token _ => readable.feed s.1 source token kept
  exact readable.finish _ fed

theorem parseTokens (tokens : List Token) (source : String) (settings : Settings) (cleared : P t.clear) :
    P (Document.parseTokens t tokens source {} settings).1 := by
  have read := readable.readTokens tokens source settings cleared
  rw [Document.parseTokens_idle, Document.orDefault]
  split
  · exact readable.edited _ .reset (fun _ _ => nofun) read
  · exact read

theorem parse (source : String) (settings : Settings) (cleared : P t.clear) :
    P (Document.parse t source settings).1 :=
  readable.parseTokens (Markup.lex source) source settings cleared

end Tree.Readable

namespace Tree.Invariant

variable {P : Tree → Prop} (inv : Tree.Invariant P) {t : Tree}

include inv

theorem edit (t : Tree) (e : Edit) (h : P t) : P (t.edit e) := (t.edit_changes e).keep inv.change h

/-- What every step keeps holds of every tree that is reached. -/
theorem of_reached {desk : Option Desk} (start : P (.new desk)) (h : Tree.Reached desk t) : P t := by
  induction h with
  | new => exact start
  | edit e _ ih => exact inv.edit _ e ih
  | parse source settings _ ih => exact inv.parse source settings (inv.edit _ .clear ih)

end Tree.Invariant

end QueryMarkup
