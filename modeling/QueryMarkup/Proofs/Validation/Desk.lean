import Mathlib.Data.List.Basic
import QueryMarkup.Validation.Schema

/-!
# What stands at the desk

The tickets of a check rise with its requests. Of those only the latest stands, and that only
while no ticket was drawn after it.
-/
namespace QueryMarkup

/-- What the schema is asked about names: that of a table, or those of a table and one of
its columns. There is no question while one of them is empty. -/
def Inquiry.about? : List String → Option Inquiry
  | [name] => if name.isEmpty then none else some (.table name)
  | [name, field] => if name.isEmpty || field.isEmpty then none else some (.column name field)
  | _ => none

namespace Desk

/-- Draws a ticket for a check and puts its question, if it has one. -/
def ask (desk : Desk) (check : Nat) : Option Inquiry → Desk
  | none => desk.renew check
  | some inquiry => (desk.renew check).send check inquiry

/-- Requests come from checks that were entered, and no ticket is used twice. -/
structure Orderly (desk : Desk) : Prop where
  entered : ∀ r ∈ desk.requests, r.check < desk.tickets.length
  issued : ∀ r ∈ desk.requests, r.ticket ≤ desk.ticket r.check
  rising : desk.requests.Pairwise fun a b => a.check = b.check → a.ticket < b.ticket

/-- The host keeps every inquiry for a later answer. -/
def Later (desk : Desk) : Prop := ∀ inquiry, desk.host inquiry = .kept

/-- The request with a number is the one of a check that an answer counts for. -/
structure Stands (desk : Desk) (check number : Nat) (request : Request) : Prop where
  found : desk.requests[number]? = some request
  asker : request.check = check
  latest : desk.ticket check = request.ticket

/-- The number of the last request of a check, not counting the first few requests. -/
def sentSince (desk : Desk) (count check : Nat) : Option Nat :=
  (List.range desk.requests.length).findRev? fun number =>
    count ≤ number && desk.requests[number]?.map (·.check) == some check

/-- No request is lost or answered, and tickets only rise. -/
structure Grows (desk desk' : Desk) : Prop where
  entered : desk.tickets.length ≤ desk'.tickets.length
  tickets : ∀ check, desk.ticket check ≤ desk'.ticket check
  requests : ∃ more, desk'.requests = desk.requests ++ more ∧ ∀ r ∈ more, r.isOpen = true

/-- A check has neither drawn a ticket nor put a question. -/
structure Quiet (check : Nat) (desk desk' : Desk) : Prop where
  ticket : desk'.ticket check = desk.ticket check
  requests : ∀ {number : Nat} {request : Request}, desk'.requests[number]? = some request →
    request.check = check → desk.requests[number]? = some request

/-- What stands for a check is the question about these names, and a rejection that holds
was the answer to it. -/
structure Matches (desk : Desk) (check : Nat) (names : List String) (rejection : Option String) :
    Prop where
  entered : check < desk.tickets.length
  asked : Inquiry.about? names ≠ none → ∃ number request, desk.Stands check number request
  current : ∀ {number request}, desk.Stands check number request →
    Inquiry.about? names = some request.inquiry
  answered : rejection ≠ none →
    ∃ number request, desk.Stands check number request ∧ request.isOpen = false

section
variable {desk desk' desk'' : Desk} {check other : Nat} {names : List String}
  {rejection : Option String}

theorem orderly_serving (host : Inquiry → Reception) : (serving host).Orderly :=
  ⟨by simp [serving], by simp [serving], List.Pairwise.nil⟩

theorem le_of_sentSince {number count : Nat} (sent : desk.sentSince count check = some number) :
    count ≤ number := by
  rw [sentSince, List.findRev?_eq_find?_reverse] at sent
  have given := List.find?_some sent
  rw [Bool.and_eq_true, decide_eq_true_eq] at given
  exact given.1

/-- The request that stands is the last one of its check. -/
theorem Orderly.sentSince_eq (h : desk.Orderly) {number count : Nat} {request : Request}
    (stands : desk.Stands check number request) (new : count ≤ number) :
    desk.sentSince count check = some number := by
  obtain ⟨bound, found⟩ := List.getElem?_eq_some_iff.mp stands.found
  obtain ⟨more, split⟩ : ∃ more, desk.requests.length = number + 1 + more := Nat.exists_eq_add_of_le bound
  rw [sentSince, List.findRev?_eq_find?_reverse, List.find?_eq_some_iff_append]
  refine ⟨by simp [new, stands.found, stands.asker], ((List.range more).map (number + 1 + ·)).reverse,
    (List.range number).reverse, ?_, fun later hl => ?_⟩
  · rw [split, List.range_add, List.range_succ]
    simp
  · obtain ⟨i, hi, rfl⟩ := List.mem_map.mp (List.mem_reverse.mp hl)
    have inside : number + 1 + i < desk.requests.length := by
      rw [split]
      exact Nat.add_lt_add_left (List.mem_range.mp hi) _
    -- a later request of the same check would have drawn a later ticket
    have other : desk.requests[number + 1 + i].check ≠ check := by
      intro asker
      have rising := List.pairwise_iff_getElem.mp h.rising number (number + 1 + i) bound inside (by omega)
      rw [found, asker] at rising
      have issued := h.issued _ (List.getElem_mem inside)
      rw [asker, stands.latest] at issued
      exact absurd (rising stands.asker) (by omega)
    simp [List.getElem?_eq_getElem inside, other]

theorem isStale_eq_false {request : Request} :
    desk.isStale request = false ↔ desk.ticket request.check = request.ticket := by
  simp [isStale]

/-! ## Growing -/

theorem Grows.refl (desk : Desk) : Grows desk desk :=
  ⟨Nat.le_refl _, fun _ => Nat.le_refl _, [], by simp, by simp⟩

theorem Grows.trans (h : Grows desk desk') (h' : Grows desk' desk'') : Grows desk desk'' := by
  obtain ⟨more, added, fresh⟩ := h.requests
  obtain ⟨more', added', fresh'⟩ := h'.requests
  refine ⟨Nat.le_trans h.entered h'.entered, fun c => Nat.le_trans (h.tickets c) (h'.tickets c),
    more ++ more', by rw [added', added, List.append_assoc], fun r hr => ?_⟩
  rcases List.mem_append.mp hr with hr | hr
  · exact fresh r hr
  · exact fresh' r hr

/-- A request stays under its number. -/
theorem Grows.found (h : Grows desk desk') {number : Nat} {request : Request}
    (found : desk.requests[number]? = some request) : desk'.requests[number]? = some request := by
  obtain ⟨more, added, -⟩ := h.requests
  have bound := (List.getElem?_eq_some_iff.mp found).1
  rw [added, List.getElem?_append_left bound, found]

/-- No other request takes the number of one. -/
theorem Grows.old (h : Grows desk desk') {number : Nat} {request : Request}
    (found : desk'.requests[number]? = some request) (bound : number < desk.requests.length) :
    desk.requests[number]? = some request := by
  have there := List.getElem?_eq_getElem bound
  rw [← found, h.found there]
  exact there

theorem Grows.length (h : Grows desk desk') : desk.requests.length ≤ desk'.requests.length := by
  obtain ⟨more, added, -⟩ := h.requests
  simp [added]

/-- A request that was not there before is open. -/
theorem Grows.isOpen (h : Grows desk desk') {number : Nat} {request : Request}
    (found : desk'.requests[number]? = some request) (new : desk.requests.length ≤ number) :
    request.isOpen = true := by
  obtain ⟨more, added, fresh⟩ := h.requests
  rw [added, List.getElem?_append_right new] at found
  exact fresh request (List.mem_of_getElem? found)

theorem Quiet.refl (check : Nat) (desk : Desk) : Quiet check desk desk := ⟨rfl, fun found _ => found⟩

theorem Quiet.trans (h : Quiet check desk desk') (h' : Quiet check desk' desk'') :
    Quiet check desk desk'' :=
  ⟨h'.ticket.trans h.ticket, fun found asker => h.requests (h'.requests found asker) asker⟩

/-- What stands for a quiet check stood before. -/
theorem Quiet.stands_iff (h : Quiet check desk desk') (grows : Grows desk desk') {number : Nat}
    {request : Request} :
    desk'.Stands check number request ↔ desk.Stands check number request := by
  constructor
  · intro stands
    exact ⟨h.requests stands.found stands.asker, stands.asker, h.ticket.symm.trans stands.latest⟩
  · intro stands
    exact ⟨grows.found stands.found, stands.asker, h.ticket.trans stands.latest⟩

theorem Matches.of_quiet (h : desk.Matches check names rejection) (grows : Grows desk desk')
    (quiet : Quiet check desk desk') : desk'.Matches check names rejection := by
  have same {number request} := @Quiet.stands_iff _ _ _ quiet grows number request
  refine ⟨Nat.lt_of_lt_of_le h.entered grows.entered, fun given => ?_, fun stands => ?_, fun held => ?_⟩
  · obtain ⟨number, request, stands⟩ := h.asked given
    exact ⟨number, request, same.mpr stands⟩
  · exact h.current (same.mp stands)
  · obtain ⟨number, request, stands, closed⟩ := h.answered held
    exact ⟨number, request, same.mpr stands, closed⟩

/-- After a ticket was drawn only new requests stand. -/
theorem Orderly.new_of_stands (h : desk.Orderly) (grows : Grows desk desk')
    (drawn : desk.ticket check < desk'.ticket check) {number : Nat} {request : Request}
    (stands : desk'.Stands check number request) : desk.requests.length ≤ number := by
  by_contra old
  have found := grows.old stands.found (Nat.lt_of_not_le old)
  have issued := h.issued request (List.mem_of_getElem? found)
  rw [stands.asker] at issued
  have latest := stands.latest
  omega

/-- Only new requests are those of a check that was entered later. -/
theorem Orderly.new_of_unknown (h : desk.Orderly) (grows : Grows desk desk') {number : Nat}
    {request : Request} (found : desk'.requests[number]? = some request)
    (unknown : desk.tickets.length ≤ request.check) : desk.requests.length ≤ number := by
  by_contra old
  have there := grows.old found (Nat.lt_of_not_le old)
  have entered := h.entered request (List.mem_of_getElem? there)
  omega

/-! ## Entering and asking -/

@[simp] theorem ticket_register (desk : Desk) (check : Nat) :
    desk.register.ticket check = desk.ticket check := by
  simp only [ticket, register]
  rcases Nat.lt_trichotomy check desk.tickets.length with lt | same | gt
  · rw [List.getElem?_append_left lt]
  · simp [same]
  · rw [List.getElem?_eq_none (by simp; omega), List.getElem?_eq_none (by omega)]

theorem grows_register (desk : Desk) : Grows desk desk.register :=
  ⟨by simp [register], fun c => by simp, [], by simp [register], by simp⟩

theorem quiet_register (check : Nat) (desk : Desk) : Quiet check desk desk.register :=
  ⟨by simp, fun found _ => found⟩

theorem Orderly.register (h : desk.Orderly) : desk.register.Orderly := by
  refine ⟨fun r hr => ?_, fun r hr => ?_, h.rising⟩
  · exact Nat.lt_of_lt_of_le (h.entered r hr) (grows_register desk).entered
  · rw [ticket_register]
    exact h.issued r hr

theorem ticket_renew (entered : check < desk.tickets.length) (other : Nat) :
    (desk.renew check).ticket other =
      if other = check then desk.ticket check + 1 else desk.ticket other := by
  by_cases same : other = check
  · subst same
    simp [ticket, renew, List.getElem?_eq_getElem entered]
  · simp [ticket, renew, same, Ne.symm same]

theorem ticket_ask (entered : check < desk.tickets.length) (inquiry : Option Inquiry) (other : Nat) :
    (desk.ask check inquiry).ticket other =
      if other = check then desk.ticket check + 1 else desk.ticket other := by
  rw [← ticket_renew entered]
  cases inquiry <;> rfl

@[simp] theorem length_tickets_ask (desk : Desk) (check : Nat) (inquiry : Option Inquiry) :
    (desk.ask check inquiry).tickets.length = desk.tickets.length := by
  cases inquiry <;> simp [ask, renew, send]

@[simp] theorem host_ask (desk : Desk) (check : Nat) (inquiry : Option Inquiry) :
    (desk.ask check inquiry).host = desk.host := by
  cases inquiry <;> rfl

/-- Where the host answers later, a request that is put stays open. -/
theorem requests_ask (later : desk.Later) (entered : check < desk.tickets.length)
    (inquiry : Option Inquiry) : (desk.ask check inquiry).requests = desk.requests ++
      inquiry.toList.map fun inquiry => ⟨inquiry, check, desk.ticket check + 1, true⟩ := by
  cases inquiry with
  | none => simp [ask, renew]
  | some inquiry =>
    have drawn := ticket_renew entered check
    rw [if_pos rfl] at drawn
    have open' : ((desk.renew check).host inquiry == .kept) = true := by
      rw [beq_iff_eq]
      exact later inquiry
    simp only [ask, send, drawn, open', Option.toList_some, List.map_cons, List.map_nil]
    rfl

theorem grows_ask (later : desk.Later) (entered : check < desk.tickets.length)
    (inquiry : Option Inquiry) : Grows desk (desk.ask check inquiry) := by
  refine ⟨by simp, fun c => ?_, _, requests_ask later entered inquiry, fun r hr => ?_⟩
  · rw [ticket_ask entered]
    split
    · rename_i same
      rw [same]
      exact Nat.le_succ _
    · exact Nat.le_refl _
  · obtain ⟨_, _, rfl⟩ := List.mem_map.mp hr
    rfl

theorem quiet_ask (later : desk.Later) (entered : check < desk.tickets.length)
    (inquiry : Option Inquiry) (apart : other ≠ check) :
    Quiet other desk (desk.ask check inquiry) := by
  refine ⟨by rw [ticket_ask entered, if_neg apart], fun found asker => ?_⟩
  rw [requests_ask later entered, List.getElem?_append] at found
  split at found
  · exact found
  · have added := List.mem_of_getElem? found
    obtain ⟨_, _, rfl⟩ := List.mem_map.mp added
    exact absurd asker.symm apart

theorem Orderly.ask (h : desk.Orderly) (later : desk.Later)
    (entered : check < desk.tickets.length) (inquiry : Option Inquiry) :
    (desk.ask check inquiry).Orderly := by
  have tickets := (grows_ask later entered inquiry).tickets
  have added {r : Request} (hr : r ∈ inquiry.toList.map fun inquiry =>
      (⟨inquiry, check, desk.ticket check + 1, true⟩ : Request)) :
      r.check = check ∧ r.ticket = desk.ticket check + 1 := by
    obtain ⟨_, _, rfl⟩ := List.mem_map.mp hr
    exact ⟨rfl, rfl⟩
  refine ⟨fun r hr => ?_, fun r hr => ?_, ?_⟩
  · rw [length_tickets_ask]
    rw [requests_ask later entered] at hr
    rcases List.mem_append.mp hr with hr | hr
    · exact h.entered r hr
    · rwa [(added hr).1]
  · rw [requests_ask later entered] at hr
    rcases List.mem_append.mp hr with hr | hr
    · exact Nat.le_trans (h.issued r hr) (tickets _)
    · have drawn := ticket_ask entered inquiry check
      rw [if_pos rfl] at drawn
      rw [(added hr).1, (added hr).2]
      exact Nat.le_of_eq drawn.symm
  · rw [requests_ask later entered]
    refine List.pairwise_append.mpr ⟨h.rising, ?_, fun r hr s hs same => ?_⟩
    · cases inquiry <;> simp
    · have issued := h.issued r hr
      rw [same, (added hs).1] at issued
      rw [(added hs).2]
      exact Nat.lt_succ_of_le issued

/-- Right after a check has asked about its names, its file is in order. -/
theorem Orderly.matches_ask (h : desk.Orderly) (later : desk.Later)
    (entered : check < desk.tickets.length) (names : List String) :
    (desk.ask check (Inquiry.about? names)).Matches check names none := by
  have drawn := ticket_ask entered (Inquiry.about? names) check
  rw [if_pos rfl] at drawn
  refine ⟨by simpa using entered, fun given => ?_, fun {number request} stands => ?_,
    fun held => absurd rfl held⟩
  · obtain ⟨inquiry, about⟩ := Option.ne_none_iff_exists'.mp given
    refine ⟨desk.requests.length, ⟨inquiry, check, desk.ticket check + 1, true⟩, ?_, rfl, drawn⟩
    rw [requests_ask later entered, about]
    simp
  · have grows := grows_ask later entered (Inquiry.about? names)
    have new := h.new_of_stands grows (by omega) stands
    have found := stands.found
    rw [requests_ask later entered, List.getElem?_append_right new] at found
    obtain ⟨inquiry, about, rfl⟩ := List.mem_map.mp (List.mem_of_getElem? found)
    exact Option.mem_toList.mp about

/-! ## Closing -/

@[simp] theorem ticket_close (desk : Desk) (number check : Nat) :
    (desk.close number).ticket check = desk.ticket check := rfl

@[simp] theorem length_requests_close (desk : Desk) (number : Nat) :
    (desk.close number).requests.length = desk.requests.length := by simp [close]

theorem getElem?_close (desk : Desk) (number i : Nat) :
    (desk.close number).requests[i]? =
      (desk.requests[i]?).map fun r => if number = i then { r with isOpen := false } else r := by
  rw [close, List.getElem?_modify]
  by_cases same : number = i <;> simp [same]

theorem stands_close {number i : Nat} {request : Request} :
    (desk.close number).Stands check i request ↔ ∃ r, desk.Stands check i r ∧
      request = if number = i then { r with isOpen := false } else r := by
  constructor
  · rintro ⟨found, asker, latest⟩
    rw [getElem?_close, Option.map_eq_some_iff] at found
    obtain ⟨r, found, rfl⟩ := found
    refine ⟨r, ⟨found, ?_, ?_⟩, rfl⟩
    · rw [← asker]
      split <;> rfl
    · rw [ticket_close] at latest
      rw [latest]
      split <;> rfl
  · rintro ⟨r, ⟨found, asker, latest⟩, rfl⟩
    refine ⟨by rw [getElem?_close, found, Option.map_some], ?_, ?_⟩
    · rw [← asker]
      split <;> rfl
    · rw [ticket_close, latest]
      split <;> rfl

theorem Orderly.close (h : desk.Orderly) (number : Nat) : (desk.close number).Orderly := by
  have old {i : Nat} {r : Request} (found : (desk.close number).requests[i]? = some r) :
      ∃ s, desk.requests[i]? = some s ∧ r.check = s.check ∧ r.ticket = s.ticket := by
    rw [getElem?_close, Option.map_eq_some_iff] at found
    obtain ⟨s, found, rfl⟩ := found
    exact ⟨s, found, by split <;> rfl, by split <;> rfl⟩
  refine ⟨fun r hr => ?_, fun r hr => ?_, List.pairwise_iff_getElem.mpr fun i j hi hj lt same => ?_⟩
  · obtain ⟨i, found⟩ := List.getElem?_of_mem hr
    obtain ⟨s, there, asker, -⟩ := old found
    rw [asker]
    exact h.entered s (List.mem_of_getElem? there)
  · obtain ⟨i, found⟩ := List.getElem?_of_mem hr
    obtain ⟨s, there, asker, ticket⟩ := old found
    rw [asker, ticket]
    exact h.issued s (List.mem_of_getElem? there)
  · obtain ⟨r, thereI, askerI, ticketI⟩ := old (List.getElem?_eq_getElem hi)
    obtain ⟨s, thereJ, askerJ, ticketJ⟩ := old (List.getElem?_eq_getElem hj)
    obtain ⟨boundI, rfl⟩ := List.getElem?_eq_some_iff.mp thereI
    obtain ⟨boundJ, rfl⟩ := List.getElem?_eq_some_iff.mp thereJ
    rw [ticketI, ticketJ]
    exact List.pairwise_iff_getElem.mp h.rising i j boundI boundJ lt
      (askerI.symm.trans (same.trans askerJ))

/-- The file of a check stays in order when a request is closed. What its rejection is then
must be backed by an answer to what stands. -/
theorem Matches.close (h : desk.Matches check names rejection) (number : Nat)
    {rejection' : Option String}
    (answered : rejection' ≠ none →
      rejection ≠ none ∨ ∃ request, desk.Stands check number request) :
    (desk.close number).Matches check names rejection' := by
  refine ⟨by simpa [Desk.close] using h.entered, fun given => ?_, fun stands => ?_, fun held => ?_⟩
  · obtain ⟨i, request, stands⟩ := h.asked given
    exact ⟨i, _, stands_close.mpr ⟨request, stands, rfl⟩⟩
  · obtain ⟨r, stood, rfl⟩ := stands_close.mp stands
    rw [h.current stood]
    split <;> rfl
  · rcases answered held with before | ⟨request, stands⟩
    · obtain ⟨i, request, stands, closed⟩ := h.answered before
      refine ⟨i, _, stands_close.mpr ⟨request, stands, rfl⟩, ?_⟩
      split
      · rfl
      · exact closed
    · exact ⟨number, _, stands_close.mpr ⟨request, stands, rfl⟩, by rw [if_pos rfl]⟩

end

end Desk

end QueryMarkup
