/-
What an event loop watches: every registration adds one event of one
descriptor, whoever makes it, and both implementations add it alike.
-/
import Libcad.Events

namespace Libcad

open Proc

/-- What a wait of `wait_selector` passes to `pselect`. -/
def SelectorFds.Watches (this : SelectorFds) (event : Event) (fd : Int) :
    Prop :=
  this.sets event fd = true ∧ fd < this.max + 1

/-- What a wait of `wait_poller` passes to `ppoll`. -/
def PollArray.Watches (this : PollArray) (event : Event) (fd : Int) : Prop :=
  ∃ p ∈ this.entries, p.fd = fd ∧ p.events &&& event.mask ≠ 0

/-- A registration keeps what is valid, and adds what it registers to what is
watched. -/
structure Adds {φ : Type} (set : Event → φ → Int → Proc φ) (valid : φ → Prop)
    (watches : φ → Event → Int → Prop) : Prop where
  set_returns : ∀ {event : Event} {this this' : φ} {fd : Int}, valid this →
    Returns (set event this fd) this' → valid this' ∧
      ∀ event' fd', watches this' event' fd' ↔
        watches this event' fd' ∨ (event', fd') = (event, fd)

namespace Adds

variable {κ φ : Type} {set : Event → φ → Int → Proc φ} {valid : φ → Prop}
  {watches : φ → Event → Int → Prop} (hadds : Adds set valid watches)
include hadds

theorem registerAll (asked : List (Event × Int)) :
    ∀ {this this' : φ}, valid this →
      Returns (Libcad.registerAll set asked this) this' → valid this' ∧
        ∀ event fd, watches this' event fd ↔
          watches this event fd ∨ (event, fd) ∈ asked := by
  induction asked with
  | nil =>
      intro this this' hvalid h
      cases returns_pure.mp h
      exact ⟨hvalid, fun event fd => by simp⟩
  | cons pair asked ih =>
      intro this this' hvalid h
      obtain ⟨event, fd⟩ := pair
      obtain ⟨next, hset, hrest⟩ := returns_bind.mp h
      obtain ⟨hnext, hwatches⟩ := hadds.set_returns hvalid hset
      obtain ⟨hvalid', hwatches'⟩ := ih hnext hrest
      refine ⟨hvalid', fun event' fd' => ?_⟩
      rw [hwatches', hwatches, List.mem_cons, or_assoc]

theorem call {behaviour : Behaviour κ} {action : κ}
    {about : Option (Event × Int)} {d d' : Dispatch κ φ}
    (hvalid : valid d.this.fd)
    (h : Returns (d.call set behaviour action about) d') :
    valid d'.this.fd ∧ (∃ asked, d'.registered = d.registered ++ asked ∧
      ∀ event fd, watches d'.this.fd event fd ↔
        watches d.this.fd event fd ∨ (event, fd) ∈ asked) := by
  obtain ⟨fd, hregister, h⟩ := returns_bind.mp h
  cases returns_pure.mp h
  obtain ⟨hfd, hwatches⟩ := hadds.registerAll _ hvalid hregister
  exact ⟨hfd, _, rfl, hwatches⟩

theorem apply {this this' : EventsImpl κ φ} {op : Setup κ}
    (hvalid : valid this.fd) (h : Returns (this.apply set op) this') :
    valid this'.fd ∧ ∀ event fd, watches this'.fd event fd ↔
      watches this.fd event fd ∨ (event, fd) ∈ op.registered := by
  cases op with
  | setTimeout timeoutUs =>
      cases returns_pure.mp h
      exact ⟨hvalid, fun event fd => by simp [Setup.registered, setTimeoutImpl]⟩
  | set event fd =>
      obtain ⟨fd', hset, h⟩ := returns_bind.mp h
      cases returns_pure.mp h
      obtain ⟨hvalid', hwatches⟩ := hadds.set_returns hvalid hset
      refine ⟨hvalid', fun event' fd' => ?_⟩
      rw [hwatches, Setup.registered, List.mem_singleton]
  | onTimeout action =>
      cases returns_pure.mp h
      exact ⟨hvalid, fun event fd => by simp [Setup.registered, onTimeoutImpl]⟩
  | onEvent event action =>
      cases returns_pure.mp h
      exact ⟨hvalid, fun event fd => by simp [Setup.registered, onEventImpl]⟩

theorem setup (ops : List (Setup κ)) :
    ∀ {this this' : EventsImpl κ φ}, valid this.fd →
      Returns (this.setup set ops) this' → valid this'.fd ∧
        ∀ event fd, watches this'.fd event fd ↔
          watches this.fd event fd ∨ (event, fd) ∈ registrations ops := by
  induction ops with
  | nil =>
      intro this this' hvalid h
      cases returns_pure.mp h
      exact ⟨hvalid, fun event fd => by simp [registrations]⟩
  | cons op ops ih =>
      intro this this' hvalid h
      obtain ⟨next, happly, hrest⟩ := returns_bind.mp h
      obtain ⟨hnext, hwatches⟩ := hadds.apply hvalid happly
      obtain ⟨hvalid', hwatches'⟩ := ih hnext hrest
      have hcons : registrations (op :: ops) =
          op.registered ++ registrations ops := List.flatMap_cons
      refine ⟨hvalid', fun event' fd' => ?_⟩
      rw [hwatches', hwatches, hcons, List.mem_append, or_assoc]

end Adds

/-- Registered descriptors are not above `max`. -/
def SelectorFds.Valid (this : SelectorFds) : Prop :=
  (0 ≤ this.max ∧ this.max < fdSetSize) ∧
    ∀ event fd, this.sets event fd = true → 0 ≤ fd ∧ fd ≤ this.max

theorem fdSet_returns {set set' : FdSet} {fd : Int} :
    Returns (fdSet set fd) set' ↔ (0 ≤ fd ∧ fd < fdSetSize) ∧
      set' = Function.update set fd true := by
  rw [fdSet]
  split
  next hin =>
    rw [returns_pure]
    exact ⟨fun h => ⟨hin, h.symm⟩, fun h => h.2.symm⟩
  next hout => exact iff_of_false not_returns_undefined fun h => hout h.1

theorem setSelector_returns {event : Event} {this this' : SelectorFds}
    {fd : Int} : Returns (setSelector event this fd) this' ↔
      (0 ≤ fd ∧ fd < fdSetSize) ∧ this' = {
        sets := Function.update this.sets event
          (Function.update (this.sets event) fd true),
        max := if this.max < fd then fd else this.max } := by
  rw [setSelector, returns_bind]
  constructor
  · rintro ⟨set, hset, h⟩
    obtain ⟨hin, rfl⟩ := fdSet_returns.mp hset
    exact ⟨hin, (returns_pure.mp h).symm⟩
  · rintro ⟨hin, rfl⟩
    exact ⟨_, fdSet_returns.mpr ⟨hin, rfl⟩, returns_pure_self _⟩

theorem sets_update {sets : Event → FdSet} {event event' : Event}
    {fd fd' : Int} :
    Function.update sets event (Function.update (sets event) fd true) event'
        fd' = true ↔
      sets event' fd' = true ∨ (event', fd') = (event, fd) := by
  by_cases hevent : event' = event
  · subst hevent
    rw [Function.update_self]
    by_cases hfd : fd' = fd
    · subst hfd
      simp
    · simp [hfd]
  · simp [hevent]

theorem selector_adds : Adds setSelector SelectorFds.Valid
    SelectorFds.Watches where
  set_returns := by
    intro event this this' fd hvalid h
    obtain ⟨hin, rfl⟩ := setSelector_returns.mp h
    obtain ⟨hmax, hsets⟩ := hvalid
    have hmax' : this.max ≤ if this.max < fd then fd else this.max := by
      split <;> omega
    have hfd : fd ≤ if this.max < fd then fd else this.max := by
      split <;> omega
    refine ⟨⟨?_, fun event' fd' hset => ?_⟩, fun event' fd' => ?_⟩
    · dsimp only
      split <;> omega
    · rcases sets_update.mp hset with hset | heq
      · have hold := hsets event' fd' hset
        exact ⟨hold.1, Int.le_trans hold.2 hmax'⟩
      · cases heq
        exact ⟨hin.1, hfd⟩
    · rw [SelectorFds.Watches, SelectorFds.Watches]
      dsimp only
      rw [sets_update]
      constructor
      · rintro ⟨hset | heq, -⟩
        · have hold := hsets event' fd' hset
          exact Or.inl ⟨hset, by omega⟩
        · exact Or.inr heq
      · rintro (⟨hset, hlt⟩ | heq)
        · exact ⟨Or.inl hset, by omega⟩
        · cases heq
          exact ⟨Or.inr rfl, by omega⟩

/-- The slots after the elements are zero, and no two elements have the same
descriptor. -/
structure PollArray.Valid (this : PollArray) : Prop where
  content_eq : ∃ free, this.content =
    this.entries ++ List.replicate free Pollfd.zero
  count_eq : this.entries.length = this.count
  nodup : (this.entries.map Pollfd.fd).Nodup

theorem mask_or (events : BitVec 16) (event event' : Event) :
    (events ||| event.mask) &&& event'.mask ≠ 0 ↔
      events &&& event'.mask ≠ 0 ∨ event' = event := by
  rw [BitVec.and_or_distrib_right]
  by_cases heq : event' = event
  · subst heq
    have hmask : event'.mask ≠ 0 := by cases event' <;> decide
    rw [BitVec.and_self]
    refine iff_of_true (fun hzero => hmask ?_) (Or.inr rfl)
    exact (BitVec.or_eq_zero_iff.mp hzero).2
  · have hdisjoint : event.mask &&& event'.mask = 0 := by
      cases event <;> cases event' <;> first | decide | exact absurd rfl heq
    rw [hdisjoint, or_iff_left heq]
    simp

theorem PollArray.grow_returns {this this' : PollArray}
    (h : Returns this.grow this') : this'.count = this.count ∧
      ∃ free, 0 < free ∧
        this'.content = this.content ++ List.replicate free Pollfd.zero := by
  rw [PollArray.grow] at h
  split at h
  next hzero =>
    obtain ⟨capacity, hcapacity, h⟩ := returns_bind.mp h
    obtain ⟨size, hsize, h⟩ := returns_bind.mp h
    cases returns_pure.mp h
    cases hcapacity.unique (intMul_returns (a := 2) (b := 2) (by decide))
    refine ⟨rfl, 4, by decide, ?_⟩
    rw [List.eq_nil_of_length_eq_zero hzero]
    rfl
  next hpos =>
    obtain ⟨capacity, hcapacity, h⟩ := returns_bind.mp h
    obtain ⟨size, hsize, h⟩ := returns_bind.mp h
    cases returns_pure.mp h
    exact ⟨rfl, this.content.length, Nat.pos_of_ne_zero hpos, rfl⟩

theorem PollArray.insertLast_returns {this this' : PollArray} {i : Nat}
    {value : Pollfd} (hvalid : this.Valid)
    (h : Returns (this.insertLast value) (i, this')) :
    i = this.entries.length ∧ this'.entries = this.entries ++ [value] ∧
      this'.count = this.count + 1 ∧
      ∃ free, this'.content =
        this'.entries ++ List.replicate free Pollfd.zero := by
  obtain ⟨grown, hgrown, h⟩ := returns_bind.mp h
  obtain ⟨free, hcontent⟩ := hvalid.content_eq
  have hroom : grown.count = this.count ∧ ∃ free, grown.content =
      this.entries ++ List.replicate (free + 1) Pollfd.zero := by
    split at hgrown
    next hfull =>
      obtain ⟨hcount, more, hmore, hgrow⟩ := PollArray.grow_returns hgrown
      refine ⟨hcount, free + more - 1, ?_⟩
      rw [hgrow, hcontent, List.append_assoc, List.replicate_append_replicate,
        Nat.sub_add_cancel (by omega)]
    next hroom =>
      cases returns_pure.mp hgrown
      have hlength := congrArg List.length hcontent
      rw [List.length_append, List.length_replicate, hvalid.count_eq] at hlength
      refine ⟨rfl, free - 1, ?_⟩
      rw [hcontent, Nat.sub_add_cancel (by omega)]
  obtain ⟨hcount, free, hcontent⟩ := hroom
  cases returns_pure.mp h
  have hset : grown.content.set grown.count value =
      this.entries ++ [value] ++ List.replicate free Pollfd.zero := by
    rw [hcontent, hcount, ← hvalid.count_eq, List.set_append_right _ _
      (Nat.le_refl _), Nat.sub_self, List.replicate_succ, List.set_cons_zero,
      List.append_assoc, List.singleton_append]
  have hentries : PollArray.entries
      ⟨grown.count + 1, grown.content.set grown.count value⟩ =
        this.entries ++ [value] := by
    rw [PollArray.entries]
    dsimp only
    rw [hset, hcount, ← hvalid.count_eq]
    exact List.take_left' (by simp)
  refine ⟨by rw [hcount, hvalid.count_eq], hentries, by rw [hcount], free, ?_⟩
  rw [hentries]
  exact hset

/-- An entry with the bits of one more event. -/
def Pollfd.watch (p : Pollfd) (event : Event) : Pollfd :=
  { p with events := p.events ||| event.mask }

theorem modify_length {α : Type} (f : α → α) (before : List α) (a : α)
    (after : List α) :
    (before ++ a :: after).modify before.length f = before ++ f a :: after := by
  induction before with
  | nil => rfl
  | cons b before ih =>
      rw [List.cons_append, List.length_cons, List.modify_succ_cons, ih,
        List.cons_append]

/-- The entry of the descriptor, which may be a new one that asks nothing. -/
theorem findPollfd_returns {this found : PollArray} {fd : Int} {i : Nat}
    (hvalid : this.Valid) (h : Returns (findPollfd this fd) (i, found)) :
    found.Valid ∧
      (found = this ∨ found.entries = this.entries ++ [⟨fd, 0, 0⟩]) ∧
      ∃ before p after, found.entries = before ++ p :: after ∧
        i = before.length ∧ p.fd = fd := by
  rw [findPollfd] at h
  split at h
  next j hfound =>
    cases returns_pure.mp h
    obtain ⟨hlt, hfd, -⟩ := List.findIdx?_eq_some_iff_getElem.mp hfound
    obtain ⟨before, p, after, hsplit, hlength, -⟩ :=
      List.exists_of_modify id hlt
    refine ⟨hvalid, Or.inl rfl, before, p, after, hsplit, hlength.symm, ?_⟩
    have hget : this.entries[i] = p := by simp [hsplit, ← hlength]
    simpa [hget] using hfd
  next hnone =>
    have hnew := List.findIdx?_eq_none_iff.mp hnone
    obtain ⟨hi, hentries, hcount, hcontent⟩ :=
      PollArray.insertLast_returns hvalid h
    refine ⟨⟨hcontent, ?_, ?_⟩, Or.inr hentries, this.entries, ⟨fd, 0, 0⟩, [],
      hentries, hi, rfl⟩
    · rw [hentries, hcount, List.length_append, hvalid.count_eq]
      rfl
    · rw [hentries, List.map_append, List.map_singleton]
      refine List.nodup_append.mpr ⟨hvalid.nodup, List.pairwise_singleton _ _, ?_⟩
      rintro a ha b hb rfl
      obtain ⟨p, hp, hpa⟩ := List.mem_map.mp ha
      have hne := hnew p hp
      rw [List.mem_singleton.mp hb] at hpa
      simp [hpa] at hne

/-- A registration adds its bits to the entry of its descriptor. -/
theorem setPoller_returns {event : Event} {this this' : PollArray} {fd : Int}
    (hvalid : this.Valid) (h : Returns (setPoller event this fd) this') :
    this'.Valid ∧ ∃ found : PollArray,
      (found = this ∨ found.entries = this.entries ++ [⟨fd, 0, 0⟩]) ∧
      ∃ before p after, found.entries = before ++ p :: after ∧ p.fd = fd ∧
        this'.entries = before ++ p.watch event :: after := by
  obtain ⟨⟨i, found⟩, hfind, h⟩ := returns_bind.mp h
  cases returns_pure.mp h
  obtain ⟨hfound, heq, before, p, after, hsplit, rfl, hfd⟩ :=
    findPollfd_returns hvalid hfind
  obtain ⟨free, hcontent⟩ := hfound.content_eq
  have hmodify : found.content.modify before.length (fun p => p.watch event) =
      (before ++ p.watch event :: after) ++
        List.replicate free Pollfd.zero := by
    rw [hcontent, hsplit, List.append_assoc, List.cons_append, modify_length,
      List.append_assoc, List.cons_append]
  have hlength : (before ++ p.watch event :: after).length = found.count := by
    rw [← hfound.count_eq, hsplit]
    simp
  have hentries : PollArray.entries
      { found with
        content := found.content.modify before.length fun p =>
          p.watch event } = before ++ p.watch event :: after := by
    rw [PollArray.entries]
    dsimp only
    rw [hmodify]
    exact List.take_left' hlength
  refine ⟨⟨⟨free, ?_⟩, ?_, ?_⟩, found, heq, before, p, after, hsplit, hfd,
    hentries⟩
  · exact hmodify.trans (congrArg (· ++ _) hentries.symm)
  · exact (congrArg List.length hentries).trans hlength
  · have hnodup := hfound.nodup
    rw [hsplit, List.map_append, List.map_cons] at hnodup
    refine (congrArg (fun l => (List.map Pollfd.fd l).Nodup) hentries).mpr ?_
    rw [List.map_append, List.map_cons]
    exact hnodup

theorem poller_adds : Adds setPoller PollArray.Valid PollArray.Watches where
  set_returns := by
    intro event this this' fd hvalid h
    obtain ⟨hvalid', found, heq, before, p, after, hsplit, rfl, hentries⟩ :=
      setPoller_returns hvalid h
    refine ⟨hvalid', fun event' fd' => ?_⟩
    have hfound : found.Watches event' fd' ↔ this.Watches event' fd' := by
      rcases heq with rfl | heq
      · rfl
      · rw [PollArray.Watches, PollArray.Watches, heq]
        simp
    rw [← hfound, PollArray.Watches, PollArray.Watches, hentries, hsplit]
    have hbits : (p.watch event).events &&& event'.mask ≠ 0 ↔
        p.events &&& event'.mask ≠ 0 ∨ event' = event := mask_or _ _ _
    constructor
    · rintro ⟨q, hq, hfd, hmask⟩
      rcases List.mem_append.mp hq with hq | hq
      · exact Or.inl ⟨q, List.mem_append_left _ hq, hfd, hmask⟩
      · rcases List.mem_cons.mp hq with rfl | hq
        · rcases hbits.mp hmask with hold | rfl
          · exact Or.inl ⟨p, by simp, hfd, hold⟩
          · exact Or.inr (by rw [← hfd]; rfl)
        · exact Or.inl ⟨q, by simp [hq], hfd, hmask⟩
    · rintro (⟨q, hq, hfd, hmask⟩ | hnew)
      · rcases List.mem_append.mp hq with hq | hq
        · exact ⟨q, List.mem_append_left _ hq, hfd, hmask⟩
        · rcases List.mem_cons.mp hq with rfl | hq
          · exact ⟨q.watch event, by simp, hfd, hbits.mpr (Or.inl hmask)⟩
          · exact ⟨q, by simp [hq], hfd, hmask⟩
      · cases hnew
        exact ⟨p.watch event, by simp, rfl, hbits.mpr (Or.inr rfl)⟩

end Libcad
