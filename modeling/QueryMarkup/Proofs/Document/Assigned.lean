import QueryMarkup.Proofs.Document.Filling
import QueryMarkup.Proofs.Tree.Sketch

/-!
# What assigned attributes say

An entry whose attributes are assigned in the order in which they are written has exactly
these attributes, and a text that is assigned afterwards comes before them.
-/
namespace QueryMarkup

namespace Entry

def sketch (e : Entry) : Sketch :=
  ⟨e.kind, e.tag, e.level, (e.attributes.map fun a => (a.name, e.value a.name)).filter fun p =>
    !p.2.isEmpty⟩

/-- The entry has attributes of these names, in this order. -/
def Lists (e : Entry) (names : List String) : Prop :=
  e.attributes = names.map e.kind.bareAttribute

theorem Lists.names {e : Entry} {names : List String} (h : e.Lists names) :
    e.attributes.map (·.name) = names := by
  rw [h, List.map_map]
  exact (List.map_congr_left fun name _ => e.kind.name_bareAttribute name).trans (List.map_id _)

/-- Attributes that are assigned in their order stay in this order. -/
theorem Lists.assignAll {e : Entry} {names : List String} {pairs : List (String × String)}
    (h : e.Lists names) (distinct : (names ++ pairs.map (·.1)).Nodup)
    (sorted : (names ++ pairs.map (·.1)).Pairwise fun x y =>
      (e.kind.bareAttribute x).order ≤ (e.kind.bareAttribute y).order) :
    (e.assignAll pairs).Lists (names ++ pairs.map (·.1)) := by
  induction pairs generalizing e names with
  | nil =>
    rw [List.map_nil, List.append_nil]
    exact h
  | cons p pairs ih =>
    have absent : p.1 ∉ names := fun hm =>
      (List.nodup_append.mp distinct).2.2 _ hm _ List.mem_cons_self rfl
    have before : ∀ b ∈ names.map e.kind.bareAttribute, b.order ≤ (e.kind.bareAttribute p.1).order := by
      intro b hb
      obtain ⟨name, hn, rfl⟩ := List.mem_map.mp hb
      exact (List.pairwise_append.mp sorted).2.2 name hn p.1 List.mem_cons_self
    have next : (e.assign p.1 p.2).Lists (names ++ [p.1]) := by
      have last := @Attribute.insertInto_append (e.kind.bareAttribute p.1) _ [] before (by simp)
      rw [List.append_nil] at last
      rw [Lists, assign]
      dsimp only
      rw [h.names, if_neg absent, h, last, List.map_append]
      rfl
    have split : names ++ (p :: pairs).map (·.1) = (names ++ [p.1]) ++ pairs.map (·.1) := by simp
    rw [split] at distinct sorted ⊢
    exact ih next distinct sorted

theorem lastValue?_of_mem {pairs : List (String × String)} (distinct : (pairs.map (·.1)).Nodup)
    {p : String × String} (hp : p ∈ pairs) : lastValue? pairs p.1 = some p.2 := by
  have here : p ∈ pairs.filter fun q => q.1 == p.1 := List.mem_filter.mpr ⟨hp, by simp⟩
  cases hl : (pairs.filter fun q => q.1 == p.1).getLast? with
  | none =>
    rw [List.getLast?_eq_none_iff.mp hl] at here
    cases here
  | some q =>
    obtain ⟨hq, name⟩ := List.mem_filter.mp (List.mem_of_getLast? hl)
    have same : q = p := List.inj_on_of_nodup_map distinct hq hp (by simpa using name)
    rw [lastValue?, hl, same]
    rfl

/-- An entry says what was assigned to it. -/
theorem sketch_assignAll {e : Entry} {pairs : List (String × String)} (bare : e.Lists [])
    (distinct : (pairs.map (·.1)).Nodup) (filled : ∀ p ∈ pairs, p.2 ≠ "")
    (sorted : pairs.Pairwise fun p q =>
      (e.kind.bareAttribute p.1).order ≤ (e.kind.bareAttribute q.1).order) :
    (e.assignAll pairs).Lists (pairs.map (·.1)) ∧
      (e.assignAll pairs).sketch = ⟨e.kind, e.tag, e.level, pairs⟩ := by
  have lists : (e.assignAll pairs).Lists (pairs.map (·.1)) :=
    bare.assignAll distinct (List.pairwise_map.mpr sorted)
  obtain ⟨-, kind, tag, level, -⟩ := e.assignAll_fixed pairs
  refine ⟨lists, ?_⟩
  have values : ((e.assignAll pairs).attributes.map fun a => (a.name, (e.assignAll pairs).value a.name)) =
      pairs := by
    rw [lists, List.map_map, List.map_map]
    refine (List.map_congr_left fun p hp => ?_).trans (List.map_id pairs)
    simp [value_assignAll, lastValue?_of_mem distinct hp]
  rw [sketch, values, kind, tag, level, List.filter_eq_self.mpr (by simpa using filled)]

/-- A text that is assigned to an entry without one comes before its other attributes. -/
theorem sketch_assign_content {e : Entry} {names : List String} (lists : e.Lists names)
    (absent : contentName ∉ names) (accepts : e.kind.acceptsContent = true) {v : String} (hv : v ≠ "") :
    (e.assign contentName v).sketch =
      ⟨e.kind, e.tag, e.level, (contentName, v) :: e.sketch.pairs⟩ := by
  have first : (e.assign contentName v).attributes =
      e.kind.bareAttribute contentName :: e.attributes := by
    have behind : ∀ b ∈ (names.map e.kind.bareAttribute).head?,
        (e.kind.bareAttribute contentName).order < b.order := by
      intro b hb
      obtain ⟨name, hn, rfl⟩ := List.mem_map.mp (List.mem_of_mem_head? hb)
      rw [Kind.order_bareAttribute_content accepts]
      exact Kind.order_bareAttribute_pos fun e => absent (e ▸ hn)
    have front := @Attribute.insertInto_append (e.kind.bareAttribute contentName) [] _ (by simp) behind
    rw [assign]
    dsimp only
    rw [lists.names, if_neg absent, lists]
    exact front
  have own : (e.assign contentName v).value contentName = v := by simp [assign]
  have others : e.attributes.map (fun a => (a.name, (e.assign contentName v).value a.name)) =
      e.attributes.map fun a => (a.name, e.value a.name) := by
    refine List.map_congr_left fun a ha => ?_
    have other : a.name ≠ contentName := fun h =>
      absent (h ▸ lists.names ▸ List.mem_map_of_mem ha)
    exact congrArg _ (if_neg other)
  have filled : (!v.isEmpty) = true := by simpa using hv
  rw [sketch, first, List.map_cons, others, Kind.name_bareAttribute, own, List.filter_cons,
    if_pos filled]
  rfl

end Entry

theorem Node.sketch_entry (n : Node) : n.entry.sketch = n.sketch := by
  simp only [Entry.sketch, Node.entry, FullEntry.entry, Node.fullEntry, List.map_map]
  rfl

theorem Tree.sketches_eq_entries (t : Tree) : t.sketches = t.entries.map Entry.sketch := by
  rw [Tree.sketches, Tree.entries, List.map_map]
  exact List.map_congr_left fun n _ => n.sketch_entry.symm

theorem Kind.ofTag_of_tag? {kind : Kind} {tag : String} (h : kind.tag? = some tag) :
    Kind.ofTag tag = kind ∧ kind ≠ .unknown := by
  cases kind <;> cases h <;> decide

end QueryMarkup
