import QueryMarkup.Proofs.Diagnostic.Suppression
import QueryMarkup.Proofs.Document.Formatting
import QueryMarkup.Proofs.Document.Standing

/-!
# Formatting keeps a clean document clean

What the checks find about the nodes of a tree without reported faults follows from the sketches
of the nodes. It does not depend on blanks around texts, and these are all that is lost when the
tree is written and read again. So where nothing is found about a text nothing is found about
its formatted form.
-/
namespace QueryMarkup

open Markup

/-! ## Findings about sketches -/

/-- A rule on children only asks whether there are any. -/
theorem Rule.issues_childCount (rule : Rule) (kind : Kind) (own : String → String) (aggregate : String)
    {m n : Nat} (same : 0 < m ↔ 0 < n) :
    rule.issues ⟨kind, own, aggregate, m⟩ = rule.issues ⟨kind, own, aggregate, n⟩ := by
  cases rule with
  | requireChild => simp only [Rule.issues, same]
  | requireAttribute | requireAnyOf | aliasWhenAggregated => rfl

/-- The values of text are right, whatever they are. -/
theorem Kind.issuesAnew_content {kind : Kind} (h : kind.acceptsContent = true) (value : String) :
    Attribute.issuesAnew kind contentName value = [] := by
  have text : ∀ spec ∈ kind.attribute? contentName, spec.valueKind = .text := by
    cases kind <;> decide
  obtain ⟨spec, declared⟩ := Option.isSome_iff_exists.mp h
  rw [Attribute.issuesAnew, declared]
  exact (congrArg (·.issues contentName value) (text spec declared)).trans
    (ValueKind.issues_text contentName value)

/-- No rule asks for anything in an element with a text. -/
theorem Kind.rules_of_acceptsContent {kind : Kind} (h : kind.acceptsContent = true) : kind.rules = [] := by
  revert h
  cases kind <;> decide

namespace Sketch

def value (x : Sketch) (name : String) : String := (x.value? name).getD ""

/-- What the rules of the kind and the checks of the values find, given the value of
`aggregate` at the root and whether there are children. -/
def issues (x : Sketch) (aggregate : String) (leads : Bool) : List Issue :=
  (x.kind.rules.flatMap fun rule => rule.issues ⟨x.kind, x.value, aggregate, leads.toNat⟩) ++
    x.pairs.flatMap fun p => Attribute.issuesAnew x.kind p.1 p.2

/-- What is found about sketches in preorder. -/
def allIssues (aggregate : String) : List Sketch → List Issue
  | [] => []
  | x :: rest => x.issues aggregate (x.leads rest) ++ allIssues aggregate rest

/-- The value of `aggregate` at the root. -/
def aggregate (xs : List Sketch) : String := (xs.head?.map (·.value "aggregate")).getD ""

variable {x : Sketch}

theorem issues_trimmed (h : x.Legible) (aggregate : String) (leads : Bool) :
    x.trimmed.issues aggregate leads = x.issues aggregate leads := by
  rcases h.pairs_eq with ⟨none, pairs⟩ | ⟨v, -, pairs, -, accepts⟩
  · have same : x.trimmed = x := by
      rw [trimmed_eq_bare (by rw [content?, none]; rfl)]
      exact congrArg (Sketch.mk x.kind x.tag x.level) pairs.symm
    rw [same]
  · have rules : x.trimmed.kind.rules = [] := Kind.rules_of_acceptsContent accepts
    have kept : x.kind.rules = [] := rules
    have text (w : String) : Attribute.issuesAnew x.kind contentName w = [] :=
      Kind.issuesAnew_content accepts w
    have left : x.trimmed.pairs = x.content?.toList.map (contentName, ·) ++ x.plain := rfl
    rw [issues, issues, rules, kept, left, pairs, List.flatMap_append, List.flatMap_cons,
      List.flatMap_map, text]
    simp only [List.flatMap_nil, List.nil_append, trimmed, text]
    simp

theorem allIssues_trimmed {xs : List Sketch} (h : ∀ x ∈ xs, x.Legible) (aggregate : String) :
    allIssues aggregate (xs.map trimmed) = allIssues aggregate xs := by
  induction xs with
  | nil => rfl
  | cons x xs ih =>
    obtain ⟨here, later⟩ := List.forall_mem_cons.mp h
    have leads : x.trimmed.leads (xs.map trimmed) = x.leads xs := by
      rw [Sketch.leads, Sketch.leads, List.head?_map, Option.any_map]
      rfl
    rw [List.map_cons, allIssues, leads, issues_trimmed here, ih later, allIssues]

theorem value_trimmed {name : String} (other : name ≠ contentName) : x.trimmed.value name = x.value name := by
  have apart : (contentName == name) = false := by simpa using other.symm
  have plain (y : Sketch) : y.value? name = (y.plain.find? fun p => p.1 == name).map (·.2) := by
    have kept : (fun p : String × String => decide ((p.1 != contentName) = true ∧ (p.1 == name) = true)) =
        fun p => p.1 == name := by
      funext p
      by_cases named : p.1 = name <;> simp [named, other]
    rw [Sketch.plain, List.find?_filter, kept]
    rfl
  rw [Sketch.value, plain, plain_trimmed, ← plain]
  rfl

theorem aggregate_trimmed (xs : List Sketch) : aggregate (xs.map trimmed) = aggregate xs := by
  cases xs with
  | nil => rfl
  | cons x xs => exact value_trimmed (by decide)

end Sketch

/-! ## Findings about nodes -/

/-- Where all values belong to attributes, the sketch of a node has them. -/
theorem Node.value_sketch {n : Node} (filled : ∀ name, n.value name ≠ "" → name ∈ n.names) :
    n.sketch.value = n.value := by
  funext name
  rw [Sketch.value, value?_sketch]
  by_cases empty : n.value name = ""
  · cases n.attribute? name <;> simp [empty, Option.filter]
  · obtain ⟨a, found⟩ : ∃ a, n.attribute? name = some a := by
      rw [← Option.ne_none_iff_exists', Ne, Tree.attribute?_eq_none]
      exact not_not.mpr (filled name empty)
    simp [found, empty, Option.filter]

/-- Where all attributes are declared and all values belong to one, the findings about a node
follow from its sketch. -/
theorem Node.issuesNow_sketch {n : Node} {aggregate : String} (fitted : n.Fitted)
    (fresh : n.FreshBut ⟨0⟩ "" [] aggregate) (schema : n.schema = none)
    (declared : ∀ name ∈ n.names, (n.kind.attribute? name).isSome = true)
    (filled : ∀ name, n.value name ≠ "" → name ∈ n.names)
    (expandable : n.expandable = decide (0 < n.childCount)) :
    n.issuesNow = n.sketch.issues aggregate n.expandable := by
  have rules : (n.kind.rules.flatMap fun rule => rule.issues ⟨n.kind, n.value, aggregate, n.childCount⟩) =
      n.kind.rules.flatMap fun rule => rule.issues ⟨n.kind, n.value, aggregate, n.expandable.toNat⟩ := by
    refine List.flatMap_congr fun rule _ => rule.issues_childCount _ _ _ ?_
    rw [expandable]
    by_cases h : 0 < n.childCount <;> simp [h]
  have attributes : ∀ names ⊆ n.names,
      names.flatMap (fun name => Attribute.issuesAnew n.kind name (n.value name)) =
        ((names.map fun name => (name, n.value name)).filter fun p => !p.2.isEmpty).flatMap
          fun p => Attribute.issuesAnew n.kind p.1 p.2 := by
    intro names
    induction names with
    | nil => intro _; rfl
    | cons name names ih =>
      intro sub
      rw [List.flatMap_cons, ih (List.subset_of_cons_subset sub), List.map_cons, List.filter_cons]
      by_cases empty : n.value name = ""
      · obtain ⟨spec, hs⟩ := Option.isSome_iff_exists.mp (declared name (sub List.mem_cons_self))
        have nothing : Attribute.issuesAnew n.kind name "" = [] := by
          rw [Attribute.issuesAnew, hs]
          rfl
        rw [empty, nothing]
        rfl
      · rw [if_pos (by simpa using empty), List.flatMap_cons]
  have pairs : n.sketch.pairs = (n.names.map fun name => (name, n.value name)).filter
      fun p => !p.2.isEmpty := by
    rw [names, List.map_map]
    rfl
  rw [issuesNow_eq fitted fresh schema, issuesAnew, Sketch.issues, value_sketch filled, pairs, rules,
    attributes n.names (List.Subset.refl _)]
  rfl

/-- The values of what was read belong to attributes. -/
theorem Mirrors.filled {done : List (Option Nat × Item)} {stack : List Nat} {b : Builder} {t : Tree}
    (h : Mirrors done stack b t) {n : Node} (hn : n ∈ t.nodes) :
    ∀ name, n.value name ≠ "" → name ∈ n.names := by
  intro name given
  have issued := h.sound.index_lt (List.mem_map_of_mem hn)
  rw [h.issued] at issued
  obtain ⟨⟨around, start⟩, hk⟩ : ∃ x, (elementsOf done)[n.id.index]? = some x :=
    ⟨_, List.getElem?_eq_getElem issued⟩
  obtain ⟨e, he, shows⟩ := h.shows _ around start hk
  obtain ⟨m, hm, rfl⟩ := List.mem_map.mp he
  obtain rfl : n = m := List.inj_on_of_nodup_map h.sound.nodup hn hm shows.id.symm
  rw [Node.names, ← Tree.Node.names_entry, shows.attributes.mem_names, List.mem_append]
  by_cases content : name = contentName
  · subst content
    right
    have said : n.value contentName = _ := shows.content
    rw [if_neg]
    · exact List.mem_singleton_self _
    · intro none
      rw [none] at said
      exact given said
  · left
    by_contra unread
    have said : n.value name = _ := shows.values name content
    rw [Entry.lastValue?_of_not_mem] at said
    · exact given said
    · intro hm
      obtain ⟨p, hp, rfl⟩ := List.mem_map.mp hm
      exact unread (List.of_mem_zip hp).1

/-- A tree as it is read of a text about which nothing is reported. -/
structure Tree.Blameless (t : Tree) : Prop where
  sound : t.Sound
  current : t.Current
  schemaless : t.Schemaless
  proper : t.Proper
  filled : ∀ n ∈ t.nodes, ∀ name, n.value name ≠ "" → name ∈ n.names

/-- All that is found about the nodes follows from the sketches. -/
theorem Tree.Blameless.issues_eq {t : Tree} (h : t.Blameless) :
    t.nodes.flatMap Node.issuesNow = Sketch.allIssues (Sketch.aggregate t.sketches) t.sketches := by
  have root : t.rootAggregate = Sketch.aggregate t.sketches := by
    rw [Tree.rootAggregate, Tree.root?, Sketch.aggregate, Tree.sketches, List.head?_map]
    cases first : t.nodes.head? with
    | none => rfl
    | some n => exact (congrFun (n.value_sketch (h.filled n (List.mem_of_mem_head? first))) _).symm
  have each : ∀ before nodes, t.nodes = before ++ nodes →
      nodes.flatMap Node.issuesNow =
        Sketch.allIssues (Sketch.aggregate t.sketches) (nodes.map Node.sketch) := by
    intro before nodes
    induction nodes generalizing before with
    | nil => intro _; rfl
    | cons n nodes ih =>
      intro split
      have hn : n ∈ t.nodes := split ▸ List.mem_append_right before List.mem_cons_self
      have declared : ∀ name ∈ n.names, (n.kind.attribute? name).isSome = true := by
        intro name hm
        rw [Node.names, ← Node.names_entry] at hm
        obtain ⟨a, ha, rfl⟩ := List.mem_map.mp hm
        exact (h.proper n.entry (List.mem_map_of_mem hn)).declared a ha
      have expandable : n.expandable = decide (0 < n.childCount) :=
        h.sound.arranged.expandable n.shape (List.mem_map_of_mem hn)
      rw [List.flatMap_cons, ih (before ++ [n]) (by simp [split]), List.map_cons, Sketch.allIssues,
        Node.issuesNow_sketch (h.current.fitted n hn) (h.current.fresh n hn) (h.schemaless.nodes n hn)
          declared (h.filled n hn) expandable, root, h.sound.expandable_eq split]
  exact each [] t.nodes rfl

namespace Document

section
variable {text : String} {settings : Settings}

/-- What is read of a text is blameless when nothing is reported about it. -/
theorem blameless_readTokens {t : Tree} (schemaless : t.clear.Schemaless)
    (silent : (readTokens t (lex text) text settings).2 = []) :
    (readTokens t (lex text) text settings).1.Blameless := by
  obtain ⟨recovered, current⟩ := recovered_readTokens t text settings
  have proper := recovered.proper (by rw [silent]; exact fun d hd => nomatch hd)
  refine ⟨recovered.sound, current, ?_, proper, ?_⟩
  · exact Tree.schemaless_invariant.readTokens (lex text) text settings schemaless
  · obtain ⟨stack, b, mirrors⟩ := mirrors_readTokens t text settings fun d hd => by
      rw [silent] at hd
      cases hd
    exact fun n hn => mirrors.filled hn

/-- Nothing is found about a node that stands somewhere exactly when it has no findings. -/
theorem nodeDiagnostics_eq_nil {n : Node} (placed : n.span ≠ none) :
    Session.nodeDiagnostics n = [] ↔ n.issuesNow = [] := by
  obtain ⟨span, hs⟩ := Option.ne_none_iff_exists'.mp placed
  simp [Session.nodeDiagnostics, hs, Node.issuesNow]

theorem deduplicated_eq_nil {proximity : Nat} {ds : List Diagnostic} :
    Diagnostics.deduplicated proximity ds = [] ↔ ds = [] := by
  constructor
  · intro none
    refine List.eq_nil_iff_forall_not_mem.mpr fun d hd => ?_
    have covered : d ∈ Diagnostics.deduplicated proximity ds ∨ _ := Diagnostics.deduplicated_covers hd
    rcases covered with here | ⟨k, hk, -⟩
    · rw [none] at here
      cases here
    · rw [none] at hk
      cases hk
  · rintro rfl
    exact List.eq_nil_iff_forall_not_mem.mpr fun d hd =>
      nomatch Diagnostics.deduplicated_subset proximity [] hd

/-- An editor that shows a text with an element has the nodes that reading makes of it. -/
theorem nodes_opened (element : (readTokens .empty (lex text) text settings).1.nodes ≠ []) :
    (opened text settings).tree.nodes = (readTokens .empty (lex text) text settings).1.nodes := by
  have filled : (readTokens .empty (lex text) text settings).1.quiet.isEmpty = false :=
    List.isEmpty_eq_false_iff.mpr element
  rw [tree_opened, orDefault, filled]
  rfl

/-- A text with an element is clean exactly when nothing is reported about it and the sketches
of what is read have no findings. -/
theorem check_eq_nil_iff (element : (readTokens .empty (lex text) text settings).1.nodes ≠ []) :
    check text settings = [] ↔ (readTokens .empty (lex text) text settings).2 = [] ∧
      let xs := (readTokens .empty (lex text) text settings).1.sketches
      Sketch.allIssues (Sketch.aggregate xs) xs = [] := by
  have reports : (opened text settings).parseDiagnostics = (readTokens .empty (lex text) text settings).2 :=
    (opened_spec text settings).2.2
  have placed := span_readTokens .empty (lex text) text settings
  rw [check_eq, deduplicated_eq_nil, Session.found, List.append_eq_nil_iff, reports, nodes_opened element]
  refine and_congr_right fun silent => ?_
  have blameless : (readTokens .empty (lex text) text settings).1.Blameless :=
    blameless_readTokens ⟨rfl, by simp [Tree.nodes_clear]⟩ silent
  dsimp only
  rw [← blameless.issues_eq, List.flatMap_eq_nil_iff, List.flatMap_eq_nil_iff]
  exact forall₂_congr fun n hn => nodeDiagnostics_eq_nil (placed n hn)

end

/-- Formatting keeps a clean document clean: where nothing is found about a text with a start
tag, it is formatted, and nothing is found about the formatted text. -/
theorem check_format (text : String) (settings : Settings)
    (element : ∃ token ∈ lex text, token.kind = .startTag) (clean : check text settings = []) :
    ∃ out, format text settings = .ok out ∧ check out settings = [] := by
  have faultless : Faultless (parse .empty text settings).2 := by
    have silent : (opened text settings).found = [] := by
      rwa [check_eq, deduplicated_eq_nil] at clean
    rw [Session.found, List.append_eq_nil_iff, (opened_spec text settings).2.2] at silent
    rw [silent.1]
    exact fun d hd => nomatch hd
  have nonempty := nodes_ne_nil faultless element
  obtain ⟨-, found⟩ := (check_eq_nil_iff nonempty).mp clean
  obtain ⟨recovered, current⟩ := recovered_readTokens .empty text settings
  obtain ⟨writable, levels⟩ := recovered.writable current nonempty
  have right := (recovered.proper faultless).not_faulty recovered.sound
  refine ⟨_, by rw [format_eq, hasErrors_eq_false.mpr faultless, parse_of_nodes nonempty]; rfl, ?_⟩
  generalize (readTokens .empty (lex text) text settings).1 = t at *
  obtain ⟨sketches, faults⟩ := readTokens_render writable settings.indentWidth settings levels .empty
  have again : (readTokens .empty (lex (render t settings.indentWidth).text)
      (render t settings.indentWidth).text settings).1.nodes ≠ [] := by
    intro none
    rw [Tree.sketches, none, Tree.sketches, eq_comm, List.map_nil, List.map_eq_nil_iff,
      List.map_eq_nil_iff] at sketches
    exact nonempty sketches
  rw [check_eq_nil_iff again, sketches]
  refine ⟨List.eq_nil_iff_forall_not_mem.mpr fun d hd => right _ (faults d hd), ?_⟩
  dsimp only
  rw [Sketch.aggregate_trimmed, Sketch.allIssues_trimmed writable.legible]
  exact found

/-- A value that is left out, a comment, and siblings that have to be sorted. -/
theorem check_format_run :
    let text := "<fetch top=''><!----><entity name='a'><order alias='b'/><all-attributes/></entity></fetch>"
    (∃ token ∈ lex text, token.kind = .startTag) ∧ check text {} = [] ∧
      ∃ out, format text {} = .ok out ∧ check out {} = [] := by
  intro text
  have element : ∃ token ∈ lex text, token.kind = .startTag := by decide +kernel
  have found : (opened text {}).found = [] := by decide +kernel
  have clean : check text {} = [] := by rwa [check_eq, deduplicated_eq_nil]
  exact ⟨element, clean, check_format text {} element clean⟩

end Document

end QueryMarkup
