import QueryMarkup.Proofs.Document.Soundness
import QueryMarkup.Proofs.Document.Tags
import QueryMarkup.Proofs.Tree.Entries

/-!
# Where the elements stand that are read

A builder hands over its staged elements one after the other. Those that are taken in become
nodes, numbered in that order, and a node stands for good where its element stood: its tag
where the tag was read, its attributes where their names were read last.
-/
namespace QueryMarkup

open Markup

/-- Where the tag of an element stands in a text, and where the names of its attributes do. -/
@[ext] structure Stand where
  tag : Option Text.Range
  name : String → Option Text.Range

namespace Stand

/-- What was never read stands nowhere. -/
def nowhere : Stand := ⟨none, fun _ => none⟩

/-- A name stands somewhere now. -/
def put (s : Stand) (name : String) (place : Text.Range) : Stand :=
  { s with name := fun other => if other = name then some place else s.name other }

/-- An attribute is put where its name stands, if it has a value. -/
def putStaged (s : Stand) (a : StagedAttribute) : Stand :=
  if a.value.isSome then s.put a.name a.span else s

end Stand

def StagedElement.stand (e : StagedElement) : Stand :=
  e.attributes.foldl Stand.putStaged { Stand.nowhere with tag := some e.span }

def Node.stand (n : Node) : Stand := ⟨n.span, fun name => (n.attribute? name).bind (·.span)⟩

theorem StagedElement.tag_stand (e : StagedElement) : e.stand.tag = some e.span := by
  have kept (s : Stand) (attributes : List StagedAttribute) :
      (attributes.foldl Stand.putStaged s).tag = s.tag := by
    induction attributes generalizing s with
    | nil => rfl
    | cons a attributes ih =>
      refine (ih _).trans ?_
      unfold Stand.putStaged
      split <;> rfl
  exact kept _ _

namespace Node

variable {n : Node} {name : String}

theorem stand_fixture (n : Node) : n.fixture.stand = n.stand := by
  have same : n.fixture.attribute? = fun name => (n.attribute? name).map Attribute.fixture := by
    funext name
    exact List.find?_map
  rw [stand, same]
  simp only [Option.bind_map]
  rfl

/-- An attribute that a node did not have stands nowhere. -/
theorem stand_insertAttribute (absent : n.attribute? name = none) :
    (n.insertAttribute name).stand = n.stand := by
  have nowhere : (Attribute.create n.kind name (n.value name)).span = none := by
    unfold Attribute.create
    split <;> rfl
  refine Stand.ext rfl (funext fun other => ?_)
  change ((Attribute.insertInto _ n.attributes).find? fun a => a.name == other).bind _ =
    (n.attributes.find? fun a => a.name == other).bind _
  have split (l : List Attribute) : ∃ before after, l = before ++ after ∧
      (Attribute.create n.kind name (n.value name)).insertInto l =
        before ++ Attribute.create n.kind name (n.value name) :: after := by
    induction l with
    | nil => exact ⟨[], [], rfl, rfl⟩
    | cons a l ih =>
      rw [Attribute.insertInto]
      split
      · obtain ⟨before, after, rfl, e⟩ := ih
        exact ⟨a :: before, after, rfl, congrArg (a :: ·) e⟩
      · exact ⟨[], a :: l, rfl, rfl⟩
  obtain ⟨before, after, old, new⟩ := split n.attributes
  rw [attribute?, old] at absent
  rw [new, old]
  by_cases here : other = name
  · subst here
    rw [absent]
    rw [List.find?_append, Option.or_eq_none_iff] at absent
    rw [List.find?_append, absent.1, Option.none_or,
      List.find?_cons_of_pos (by simp [Attribute.name_create])]
    exact nowhere
  · rw [List.find?_append, List.find?_append,
      List.find?_cons_of_neg (by simp [Attribute.name_create, Ne.symm here])]

/-- The names of a node stand somewhere else. -/
theorem stand_alterAttribute (present : (n.attribute? name).isSome = true) (place : Text.Range) :
    (n.alterAttribute name fun a => { a with span := some place }).stand = n.stand.put name place := by
  refine Stand.ext rfl (funext fun other => ?_)
  have found : (n.alterAttribute name fun a => { a with span := some place }).attribute? other =
      (n.attribute? other).map fun a => if a.name = name then { a with span := some place } else a := by
    rw [attribute?, alterAttribute, List.find?_map]
    have same : ((fun a : Attribute => a.name == other) ∘ fun a =>
        if a.name = name then { a with span := some place } else a) = fun a => a.name == other := by
      funext a
      rw [Function.comp_apply]
      split <;> rfl
    rw [same]
    rfl
  change Option.bind _ _ = if other = name then some place else n.stand.name other
  rw [found, Option.bind_map]
  cases ha : n.attribute? other with
  | none =>
    have missing : other ≠ name := by
      rintro rfl
      rw [ha] at present
      cases present
    rw [if_neg missing, stand]
    simp [ha]
  | some a =>
    have named : a.name = other := by simpa using List.find?_some ha
    by_cases here : other = name
    · simp [named, here]
    · simp [named, here, stand, ha]

end Node

namespace Tree

/-- The nodes stand where a log says it of the element with their number. -/
structure Logs (log : List Stand) (t : Tree) : Prop where
  sound : t.Sound
  issued : t.issued = log.length
  live : ∀ k < log.length, ⟨k⟩ ∈ t.ids
  stands : ∀ n ∈ t.nodes, log[n.id.index]? = some n.stand

section
variable {log : List Stand} {s s' : Stand} {t t' : Tree} {id : NodeId}

theorem logs_clear (t : Tree) : t.clear.Logs [] where
  sound := t.clear_sound
  issued := issued_setSelection _ _
  live := by simp
  stands := by simp [nodes_clear]

theorem Logs.of_keeps (h : t.Logs log) (sound : t'.Sound)
    (kept : Keeps (fun n => (n.id, n.stand)) t t') : t'.Logs log := by
  have ids : t'.ids = t.ids := (kept.map Prod.fst).nodes
  refine ⟨sound, kept.issued.trans h.issued, ids ▸ h.live, fun m hm => ?_⟩
  obtain ⟨n, hn, same⟩ := List.mem_map.mp (kept.nodes ▸ List.mem_map_of_mem hm)
  obtain ⟨id, stand⟩ := Prod.mk.inj same
  rw [← id, ← stand]
  exact h.stands n hn

/-- A new node stands nowhere yet. -/
theorem Logs.addParsed {kind : Kind} {tag : String} {parent : Option NodeId} (h : t.Logs log)
    (e : t.addParsed kind tag parent = .ok (t', id)) :
    id = ⟨log.length⟩ ∧ t'.Logs (log ++ [.nowhere]) := by
  have sound := sound_invariant.addParsed h.sound e
  have added (issued : t'.issued = t.issued + 1) (more : t.ids ⊆ t'.ids) (new : ⟨t.issued⟩ ∈ t'.ids)
      (nodes : ∀ n ∈ t'.nodes, (n.id = ⟨t.issued⟩ ∧ n.stand = .nowhere) ∨
        ∃ m ∈ t.nodes, (m.id, m.stand) = (n.id, n.stand)) : t'.Logs (log ++ [.nowhere]) := by
    refine ⟨sound, ?_, fun k hk => ?_, fun n hn => ?_⟩
    · rw [issued, h.issued, List.length_append, List.length_singleton]
    · rw [List.length_append, List.length_singleton] at hk
      by_cases old : k < log.length
      · exact more (h.live k old)
      · obtain rfl : k = t.issued := by
          have := h.issued
          omega
        exact new
    · rcases nodes n hn with ⟨id, stand⟩ | ⟨m, hm, same⟩
      · rw [id, stand, h.issued, List.getElem?_concat_length]
      · obtain ⟨id, stand⟩ := Prod.mk.inj same
        have old := h.stands m hm
        obtain ⟨bound, -⟩ := List.getElem?_eq_some_iff.mp old
        rw [← id, ← stand, List.getElem?_append_left bound]
        exact old
  obtain ⟨empty, rfl, rfl⟩ | ⟨-, above, -, inserted⟩ := Tree.addParsed_eq_ok e
  · have planted : Keeps (fun n => (n.id, n.stand))
        { t with nodes := [t.fresh kind tag none], issued := t.issued + 1 } (t.plantRoot kind tag) :=
      wire_keeps_of (fun _ => rfl) (fun _ _ _ => rfl) _ _
    have ids : (t.plantRoot kind tag).ids = [⟨t.issued⟩] := (planted.map Prod.fst).nodes
    have before : t.ids = [] := by rw [Tree.ids, empty, List.map_nil]
    refine ⟨congrArg NodeId.mk h.issued, added planted.issued ?_ ?_ fun n hn => .inl ?_⟩
    · rw [before]
      exact List.nil_subset _
    · exact ids ▸ List.mem_singleton_self _
    · have listed := List.mem_map_of_mem (f := fun n : Node => (n.id, n.stand)) hn
      rw [touch, planted.nodes] at listed
      exact Prod.mk.inj (List.mem_singleton.mp listed)
  · obtain ⟨_, _, _, cut, rfl, -⟩ := insert_eq_ok inserted
    refine ⟨congrArg NodeId.mk h.issued, added (insert_keeps cut inserted).2.issued
      (ids_insert_subset inserted) (id_mem_insert inserted) fun n hn => ?_⟩
    obtain ⟨above, -, all⟩ := @mem_map_insert t _ (fun n => (n.id, n.stand)) _ _ _ _ _
      (fun _ => rfl) (fun _ _ _ => rfl) (fun _ _ _ _ _ => rfl) inserted
    rcases (all (n.id, n.stand)).mp (List.mem_map_of_mem hn) with new | old
    · exact .inl (Prod.mk.inj new)
    · exact .inr (List.mem_map.mp old)

/-- A write moves nothing, and every node keeps the attributes that it has. -/
theorem writeSlot_stands (t : Tree) (id : NodeId) (name value : String) :
    Keeps (fun n => ((n.id, n.stand), (n.attribute? name).isSome)) t (t.writeSlot id name value) := by
  refine writeSlot_keeps (fun n => ?_) (fun _ _ _ => rfl) t id name value
  have same : (n.fixture.attribute? name).isSome = (n.attribute? name).isSome := by
    rw [Node.attribute?, Node.fixture, List.find?_map, Option.isSome_map]
    rfl
  rw [n.stand_fixture, same]
  rfl

theorem Logs.writeSlot (h : t.Logs log) (id : NodeId) (name value : String) :
    (t.writeSlot id name value).Logs log :=
  h.of_keeps (writeSlot_sound h.sound id name value) ((t.writeSlot_stands id name value).map Prod.fst)

theorem Logs.attribute?_writeSlot {n : Node} (h : t.Logs log) (found : t.node? id = some n)
    (name value : String) : ∀ m ∈ (t.writeSlot id name value).nodes, m.id = id →
      (m.attribute? name).isSome = (n.attribute? name).isSome := by
  intro m hm here
  have written := t.writeSlot_stands id name value
  obtain ⟨k, hk, same⟩ := List.mem_map.mp (written.nodes ▸ List.mem_map_of_mem hm)
  obtain ⟨place, present⟩ := Prod.mk.inj same
  obtain ⟨hn, id⟩ := node?_eq_some found
  have there : k.id = n.id := (Prod.mk.inj place).1.trans (here.trans id.symm)
  rw [← present, List.inj_on_of_nodup_map h.sound.nodup hk hn there]

/-- Storing a value moves nothing. -/
theorem Logs.insertParsed {name value : String} {issues : List StructuralIssue} (h : t.Logs log)
    (e : t.insertParsed id name value = .ok (t', issues)) :
    t'.Logs log ∧ ∀ n ∈ t'.nodes, n.id = id → (n.attribute? name).isSome = true := by
  have sound := sound_invariant.insertParsed h.sound e
  have written := h.writeSlot id name value
  obtain ⟨n, found, ⟨present, rfl, -⟩ | ⟨absent, rfl, -⟩⟩ := insertParsed_eq_ok e
  · refine ⟨written, fun m hm here => ?_⟩
    rw [h.attribute?_writeSlot found name value m hm here]
    exact present
  · have unset : ∀ m ∈ (t.writeSlot id name value).nodes, m.id = id → m.attribute? name = none := by
      intro m hm here
      have same := h.attribute?_writeSlot found name value m hm here
      rw [absent] at same
      simpa using same
    have inserted : Keeps Node.id (t.writeSlot id name value) (t.createAttribute id name value) :=
      createAttribute_keeps (fun _ _ => rfl) t id name value
    have ids : (t.createAttribute id name value).ids = (t.writeSlot id name value).ids := inserted.nodes
    refine ⟨⟨sound, written.issued, ids ▸ written.live, ?_⟩, ?_⟩
    · apply forall_mem_alter
      · intro m hm here
        rw [Node.stand_insertAttribute (unset m hm here)]
        exact written.stands m hm
      · exact fun m hm _ => written.stands m hm
    · apply forall_mem_alter
      · intro m _ _ _
        refine List.find?_isSome.mpr ⟨_, Attribute.mem_insertInto.mpr (.inl rfl), ?_⟩
        simp [Attribute.name_create]
      · exact fun m _ other here => absurd here other

/-- The node that was made last is moved. -/
theorem Logs.alter {f : Node → Node} (h : t.Logs (log ++ [s]))
    (sound : (t.alter ⟨log.length⟩ f).Sound) (moved : ∀ n ∈ t.nodes, n.id = ⟨log.length⟩ →
      n.stand = s → (f n).id = n.id ∧ (f n).stand = s') :
    (t.alter ⟨log.length⟩ f).Logs (log ++ [s']) := by
  have size : (log ++ [s']).length = (log ++ [s]).length := by simp
  have ids : (t.alter ⟨log.length⟩ f).ids = t.ids := by
    rw [Tree.ids, nodes_alter, List.map_map]
    refine List.map_congr_left fun n hn => ?_
    rw [Function.comp_apply]
    split
    · rename_i last
      have stand := h.stands n hn
      rw [last, List.getElem?_concat_length] at stand
      exact (moved n hn last (Option.some.inj stand).symm).1
    · rfl
  refine ⟨sound, h.issued.trans size.symm, ids ▸ size ▸ h.live, fun m hm => ?_⟩
  · obtain ⟨n, hn, ⟨last, rfl⟩ | ⟨other, rfl⟩⟩ := mem_alter hm
    · have stand := h.stands n hn
      rw [last, List.getElem?_concat_length] at stand
      obtain ⟨id, there⟩ := moved n hn last (Option.some.inj stand).symm
      rw [id, last, there, List.getElem?_concat_length]
    · have stand := h.stands m hn
      have before : m.id.index ≠ log.length := fun e => other (by rw [← e])
      obtain ⟨bound, -⟩ := List.getElem?_eq_some_iff.mp stand
      rw [List.length_append, List.length_singleton] at bound
      rw [List.getElem?_append_left (by omega)] at stand ⊢
      exact stand

theorem Logs.setSpan (h : t.Logs (log ++ [s])) (place : Text.Range) :
    (t.setSpan ⟨log.length⟩ (some place)).Logs (log ++ [{ s with tag := some place }]) := by
  refine h.alter (sound_invariant.setSpan _ _ _ h.sound) ?_
  rintro n - - rfl
  exact ⟨rfl, rfl⟩

theorem Logs.setAttributeSpan {name : String} (h : t.Logs (log ++ [s])) (place : Text.Range)
    (present : ∀ n ∈ t.nodes, n.id = ⟨log.length⟩ → (n.attribute? name).isSome = true) :
    (t.setAttributeSpan ⟨log.length⟩ name (some place)).Logs (log ++ [s.put name place]) := by
  refine h.alter (sound_invariant.setAttributeSpan _ _ _ _ h.sound) ?_
  rintro n hn last rfl
  exact ⟨rfl, Node.stand_alterAttribute (present n hn last) place⟩

/-- Nodes that are numbered in order stand as the log has it. -/
theorem Logs.map_stand (h : t.Logs log) (ids : t.ids = (List.range log.length).map NodeId.mk) :
    t.nodes.map Node.stand = log := by
  have size : t.nodes.length = log.length := by
    have lengths := congrArg List.length ids
    rwa [Tree.ids, List.length_map, List.length_map, List.length_range] at lengths
  refine List.ext_getElem ((List.length_map _).trans size) fun i hi hj => ?_
  have bound : i < t.nodes.length := size ▸ hj
  have number : t.nodes[i].id = ⟨i⟩ := by
    have same := congrArg (·[i]?) ids
    simpa [Tree.ids, bound, hj] using same
  have stand := h.stands t.nodes[i] (List.getElem_mem bound)
  rw [number] at stand
  rw [List.getElem_map]
  exact (Option.some.inj ((List.getElem?_eq_getElem hj).symm.trans stand)).symm

end

end Tree

namespace Builder

/-- The staged element that a token hands over, when its tag ends or breaks off there. -/
def ended (b : Builder) (token : Token) : List StagedElement :=
  match token.kind with
  | .startTag | .startCloseTag => b.staged.toList
  | .endTag | .selfCloseEndTag => if b.phase = .closing then [] else b.staged.toList
  | _ => []

/-- The staged elements that tokens hand over one after the other. -/
def endedAll (source : String) (s : Builder × Tree) : List Token → List StagedElement
  | [] => []
  | token :: rest =>
    s.1.ended token ++ endedAll source (s.1.feed s.2 ⟨.textToTree⟩ source token) rest

section
variable {log : List Stand} {s : Stand} {b : Builder} {t : Tree} {source : String}

theorem endedAll_append (source : String) (s : Builder × Tree) (xs ys : List Token) :
    endedAll source s (xs ++ ys) =
      endedAll source s xs ++ endedAll source (readAll source s xs) ys := by
  induction xs generalizing s with
  | nil => rfl
  | cons token xs ih => rw [List.cons_append, endedAll, ih, endedAll, List.append_assoc, readAll_cons]

theorem logs_readAttribute (h : t.Logs (log ++ [s])) (b : Builder) (seen : List String)
    (a : StagedAttribute) :
    (readAttribute ⟨log.length⟩ (b, t, seen) a).2.1.Logs (log ++ [s.putStaged a]) := by
  cases readAttribute_outcome ⟨log.length⟩ b t seen a with
  | missing valueless read =>
    rw [read, Stand.putStaged, valueless]
    exact h
  | @lost value _ _ refused =>
    have live : (⟨log.length⟩ : NodeId) ∈ t.ids := h.live log.length (by simp)
    obtain ⟨_, _, stored⟩ := Tree.exists_insertParsed live a.name value
    rw [stored] at refused
    cases refused
  | stored valued inserted read =>
    rw [read, Stand.putStaged, valued]
    obtain ⟨kept, present⟩ := h.insertParsed inserted
    exact kept.setAttributeSpan a.span present

theorem logs_readAttributes (h : t.Logs (log ++ [s])) (b : Builder) (seen : List String)
    (attributes : List StagedAttribute) :
    (attributes.foldl (readAttribute ⟨log.length⟩) (b, t, seen)).2.1.Logs
      (log ++ [attributes.foldl Stand.putStaged s]) := by
  induction attributes generalizing s b t seen with
  | nil => exact h
  | cons a attributes ih => exact ih (logs_readAttribute h b seen a) _ _

/-- Of the elements that are handed over some are taken in, in their order. -/
def Takes (log : List Stand) (offered : List StagedElement) (t : Tree) : Prop :=
  ∃ taken : List StagedElement, taken.Sublist offered ∧ t.Logs (log ++ taken.map StagedElement.stand)

theorem takes_nothing (h : t.Logs log) (offered : List StagedElement) : Takes log offered t :=
  ⟨[], List.nil_sublist _, by rwa [List.map_nil, List.append_nil]⟩

/-- An element is taken in, where it stands, or it is skipped. -/
theorem takes_finalize (h : t.Logs log) (b : Builder) (e : StagedElement) (selfClosing : Bool) :
    Takes log [e] (b.finalize t e selfClosing).2 := by
  cases b.finalize_outcome t e selfClosing with
  | skipped _ made => exact made ▸ takes_nothing h _
  | refused _ made => exact made ▸ takes_nothing h _
  | lost _ _ made => exact made ▸ takes_nothing h _
  | added _ added made =>
    obtain ⟨rfl, fresh⟩ := h.addParsed added
    exact made ▸ ⟨[e], List.Sublist.refl _, logs_readAttributes (fresh.setSpan e.span) _ _ _⟩

theorem takes_abandon (h : t.Logs log) (b : Builder) : Takes log b.staged.toList (b.abandon t).2 := by
  cases b.abandon_outcome t with
  | @element e staged broken =>
    rw [staged]
    exact broken ▸ takes_finalize h _ e true
  | nothing _ _ broken => exact broken ▸ takes_nothing h _
  | nameless _ _ _ broken => exact broken ▸ takes_nothing h _

theorem takes_endTag (h : t.Logs log) (b : Builder) (span : Text.Range) (selfClosing : Bool) :
    Takes log (if b.phase = .closing then [] else b.staged.toList) (b.endTag t span selfClosing).2 := by
  cases b.endTag_outcome t span selfClosing with
  | close _ ended => exact ended ▸ takes_nothing h _
  | @element e phase staged ended =>
    rw [if_neg phase, staged]
    exact ended ▸ takes_finalize h _ e selfClosing
  | nameless _ _ _ ended => exact ended ▸ takes_nothing h _
  | nothing _ _ _ ended => exact ended ▸ takes_nothing h _

/-- A text moves nothing. -/
theorem logs_readText (h : t.Logs log) (b : Builder) (span : Text.Range) (chars : List Char) :
    (b.readText t span chars).2.Logs log := by
  cases b.readText_outcome t span chars with
  | ignored read => exact read ▸ h
  | unexpected read => exact read ▸ h
  | stored _ _ inserted read => exact read ▸ (h.insertParsed inserted).1

theorem takes_feed (h : t.Logs log) (b : Builder) (source : String) (token : Token) :
    Takes log (b.ended token) (b.feed t ⟨.textToTree⟩ source token).2 := by
  cases b.feed_outcome t source token with
  | starts kind fed =>
    have offered : b.ended token = b.staged.toList := by
      rcases kind with kind | kind <;> rw [ended, kind]
    rw [offered]
    exact fed ▸ takes_abandon h b
  | ends kind fed =>
    have offered : b.ended token = if b.phase = .closing then [] else b.staged.toList := by
      rcases kind with kind | kind <;> rw [ended, kind]
    rw [offered]
    exact fed ▸ takes_endTag h b token.span _
  | text fed => exact fed ▸ takes_nothing (logs_readText h b _ _) _
  | tagName _ _ _ fed => exact fed ▸ takes_nothing h _
  | attributeName _ _ fed => exact fed ▸ takes_nothing h _
  | attributeValue fed => exact fed ▸ takes_nothing h _
  | error _ fed => exact fed ▸ takes_nothing h _
  | passed fed => exact fed ▸ takes_nothing h _

theorem Takes.append {offered offered' : List StagedElement} {t' : Tree} (h : Takes log offered t)
    (next : ∀ log', t.Logs log' → Takes log' offered' t') : Takes log (offered ++ offered') t' := by
  obtain ⟨first, here, logs⟩ := h
  obtain ⟨others, later, logs'⟩ := next _ logs
  refine ⟨first ++ others, here.append later, ?_⟩
  rw [List.map_append, ← List.append_assoc]
  exact logs'

theorem takes_readAll (h : t.Logs log) (b : Builder) (tokens : List Token) :
    Takes log (endedAll source (b, t) tokens) (readAll source (b, t) tokens).2 := by
  induction tokens generalizing b t log with
  | nil => exact takes_nothing h _
  | cons token tokens ih => exact (takes_feed h b source token).append fun _ fed => ih fed _

end

end Builder

/-- Every node that is read stands where the tag of some element does. -/
theorem Document.span_readTokens (t : Tree) (tokens : List Token) (source : String)
    (settings : Settings) : ∀ n ∈ (readTokens t tokens source settings).1.nodes, n.span ≠ none := by
  have read := @Builder.takes_readAll [] t.clear source t.logs_clear
    { limit := settings.nestingLimit } tokens
  have done := read.append fun _ logs => Builder.takes_abandon logs
    (Builder.readAll source ({ limit := settings.nestingLimit }, t.clear) tokens).1
  obtain ⟨taken, -, logs⟩ := done
  intro n hn
  have stand := logs.stands n hn
  rw [List.nil_append, List.getElem?_map, Option.map_eq_some_iff] at stand
  obtain ⟨e, -, stand⟩ := stand
  have same : n.span = e.stand.tag := by
    rw [stand]
    rfl
  rw [same, e.tag_stand]
  exact Option.some_ne_none _

end QueryMarkup
