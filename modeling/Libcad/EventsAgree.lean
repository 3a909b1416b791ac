/-
One wait of each loop after any registrations: which handlers it calls, and
which entries it looks at.
-/
import Libcad.EventsRuns
import Mathlib.Data.List.Perm.Subperm

namespace Libcad

open Proc

/-- The descriptors of a list of registrations are below `FD_SETSIZE`. -/
def InRange (asked : List (Event × Int)) : Prop :=
  ∀ r ∈ asked, 0 ≤ r.2 ∧ r.2 < fdSetSize

instance (asked : List (Event × Int)) : Decidable (InRange asked) :=
  inferInstanceAs (Decidable (∀ r ∈ asked, 0 ≤ r.2 ∧ r.2 < fdSetSize))

/-- What `pselect` reports was asked for. -/
def Pselect.Sound (pselect : Pselect) : Prop :=
  ∀ nfds sets timeout event fd,
    (pselect nfds sets timeout).ready event fd = true → sets event fd = true

/-- What `pselect` reports in a wait. -/
def Pselect.Reports {κ : Type} (pselect : Pselect)
    (this : EventsImpl κ SelectorFds) (event : Event) (fd : Int) : Prop :=
  let out := pselect (this.fd.max + 1) this.fd.sets this.timeout
  0 < out.res ∧ out.ready event fd = true

/-- What `ppoll` reports in a wait. -/
def Ppoll.Reports {κ : Type} (ppoll : Ppoll) (this : EventsImpl κ PollArray)
    (event : Event) (fd : Int) : Prop :=
  let out := ppoll this.fd.entries this.timeout
  0 < out.res ∧ ∃ i p, this.fd.entries[i]? = some p ∧ p.fd = fd ∧
    out.revents i &&& event.mask ≠ 0

/-- Handlers are called once for each event of a descriptor that is registered,
is reported and has a handler, and for nothing else. -/
structure CallsRight {κ : Type} (registered : List (Event × Int))
    (reports : Event → Int → Prop) (onEvent : Event → Option κ)
    (calls : List (Call κ)) : Prop where
  once : (calls.filterMap Call.about).Nodup
  called : ∀ action event fd, ⟨action, some (event, fd)⟩ ∈ calls ↔
    (event, fd) ∈ registered ∧ reports event fd ∧ onEvent event = some action

def SelectorRight {κ : Type} (pselect : Pselect) (behaviour : Behaviour κ)
    (registered : List (Event × Int)) (this : EventsImpl κ SelectorFds) :
    Prop :=
  ∃ res d, Returns (waitSelector pselect behaviour this) (res, d) ∧
    CallsRight registered (pselect.Reports this) this.onEvent d.calls

/-- The wait of the poller is right, and looks only at registered entries. -/
def PollerRight {κ : Type} (ppoll : Ppoll) (behaviour : Behaviour κ)
    (registered : List (Event × Int)) (this : EventsImpl κ PollArray) : Prop :=
  ∃ res d, Returns (waitPoller ppoll behaviour this) (res, d) ∧
    CallsRight registered (ppoll.Reports this) this.onEvent d.calls ∧
    ∀ i ∈ d.looked, i < this.fd.count

section

variable {κ φ : Type} {set : Event → φ → Int → Proc φ} {good : φ → Prop}

/-- A registration in range keeps what is good. -/
def Total (set : Event → φ → Int → Proc φ) (good : φ → Prop) : Prop :=
  ∀ event this fd, good this → 0 ≤ fd ∧ fd < fdSetSize →
    ∃ this', Returns (set event this fd) this' ∧ good this'

theorem Total.registerAll (htotal : Total set good)
    (asked : List (Event × Int)) :
    ∀ {this : φ}, good this → InRange asked →
      ∃ this', Returns (Libcad.registerAll set asked this) this' ∧
        good this' := by
  induction asked with
  | nil => exact fun hgood _ => ⟨_, returns_pure_self _, hgood⟩
  | cons r asked ih =>
      intro this hgood hrange
      obtain ⟨next, hset, hnext⟩ := htotal r.1 this r.2 hgood
        (hrange r List.mem_cons_self)
      obtain ⟨this', hrest, hgood'⟩ := ih hnext
        fun r' hr => hrange r' (List.mem_cons_of_mem _ hr)
      exact ⟨this', hset.bind hrest, hgood'⟩

theorem Total.call (htotal : Total set good) {behaviour : Behaviour κ}
    (hrange : ∀ calls, InRange (behaviour calls)) (action : κ)
    (about : Option (Event × Int)) {d : Dispatch κ φ} (hgood : good d.this.fd) :
    ∃ d', Returns (d.call set behaviour action about) d' ∧ good d'.this.fd ∧
      d'.this.onEvent = d.this.onEvent ∧ d'.looked = d.looked ∧
      d'.calls = d.calls ++ [⟨action, about⟩] := by
  obtain ⟨fd, hregister, hgood'⟩ :=
    htotal.registerAll (behaviour (d.calls ++ [⟨action, about⟩])) hgood
      (hrange _)
  exact ⟨_, hregister.bind (returns_pure_self _), hgood', rfl, rfl, rfl⟩

theorem Total.callTimeout (htotal : Total set good) {behaviour : Behaviour κ}
    (hrange : ∀ calls, InRange (behaviour calls)) {this : EventsImpl κ φ}
    (hgood : good this.fd) :
    ∃ d', Returns (this.dispatch.callTimeout set behaviour) d' ∧
      d'.looked = [] ∧ ∀ call ∈ d'.calls, call.about = none := by
  rw [Dispatch.callTimeout]
  split
  next action _ =>
    obtain ⟨d', hcall, -, -, hlooked, hcalls⟩ :=
      htotal.call hrange action none (d := this.dispatch) hgood
    refine ⟨d', hcall, hlooked, fun call hmem => ?_⟩
    rw [hcalls] at hmem
    rw [List.mem_singleton.mp hmem]
  next =>
    exact ⟨_, returns_pure_self _, rfl,
      fun _ hmem => absurd hmem List.not_mem_nil⟩

theorem Total.setup (htotal : Total set good) (ops : List (Setup κ)) :
    ∀ {this : EventsImpl κ φ}, good this.fd → InRange (registrations ops) →
      ∃ this', Returns (this.setup set ops) this' ∧ good this'.fd := by
  induction ops with
  | nil => exact fun hgood _ => ⟨_, returns_pure_self _, hgood⟩
  | cons op ops ih =>
      intro this hgood hrange
      have hcons : registrations (op :: ops) =
          op.registered ++ registrations ops := List.flatMap_cons
      rw [hcons] at hrange
      have hnext : ∃ next, Returns (this.apply set op) next ∧
          good next.fd := by
        cases op with
        | set event fd =>
            obtain ⟨fd', hset, hgood'⟩ := htotal event this.fd fd hgood
              (hrange (event, fd) (by simp [Setup.registered]))
            exact ⟨_, hset.bind (returns_pure_self _), hgood'⟩
        | setTimeout timeoutUs => exact ⟨_, returns_pure_self _, hgood⟩
        | onTimeout action => exact ⟨_, returns_pure_self _, hgood⟩
        | onEvent event action => exact ⟨_, returns_pure_self _, hgood⟩
      obtain ⟨next, happly, hgood'⟩ := hnext
      obtain ⟨this', hrest, hthis'⟩ := ih hgood'
        fun r hr => hrange r (List.mem_append_right _ hr)
      exact ⟨this', happly.bind hrest, hthis'⟩

/-- Calls about no descriptor are right when nothing is reported. -/
theorem callsRight_of_none {registered : List (Event × Int)}
    {reports : Event → Int → Prop} {onEvent : Event → Option κ}
    {calls : List (Call κ)} (hreports : ∀ event fd, ¬ reports event fd)
    (hcalls : ∀ call ∈ calls, call.about = none) :
    CallsRight registered reports onEvent calls where
  once := by
    rw [List.filterMap_eq_nil_iff.mpr hcalls]
    exact List.Pairwise.nil
  called action event fd := by
    refine iff_of_false (fun h => ?_) fun h => hreports event fd h.2.1
    cases hcalls _ h

end

theorem selector_total : Total setSelector SelectorFds.Valid := by
  intro event this fd hvalid hin
  have hset := (@setSelector_returns event this _ fd).mpr ⟨hin, rfl⟩
  exact ⟨_, hset, (selector_adds.set_returns hvalid hset).1⟩

section

variable {κ : Type} {behaviour : Behaviour κ} {ready : Event → FdSet}
  {start : EventsImpl κ SelectorFds}

/-- The calls of the selector when it has been through the events and
descriptors `seen`. -/
structure Selecting (ready : Event → FdSet) (start : EventsImpl κ SelectorFds)
    (seen : Event → Int → Prop) (d : Dispatch κ SelectorFds) : Prop where
  valid : d.this.fd.Valid
  onEvent : d.this.onEvent = start.onEvent
  keeps : ∀ event fd, start.fd.Watches event fd → d.this.fd.Watches event fd
  once : (d.calls.filterMap Call.about).Nodup
  called : ∀ action event fd, ⟨action, some (event, fd)⟩ ∈ d.calls ↔
    seen event fd ∧ start.fd.sets event fd = true ∧ ready event fd = true ∧
      start.onEvent event = some action

/-- A test calls the handler if it is to be called. -/
theorem Selecting.selectEvent (hrange : ∀ calls, InRange (behaviour calls))
    (hstart : start.fd.Valid)
    (hready : ∀ event fd, ready event fd = true →
      start.fd.sets event fd = true)
    {seen : Event → Int → Prop} {d : Dispatch κ SelectorFds} {event : Event}
    {i : Int} (hd : Selecting ready start seen d) (hnew : ¬ seen event i) :
    ∃ d', Returns (Libcad.selectEvent behaviour ready event i d) d' ∧
      Selecting ready start
        (fun event' fd => seen event' fd ∨ (event', fd) = (event, i)) d' := by
  have hskip : (start.fd.sets event i = true → ready event i = true →
      start.onEvent event = none) →
      Selecting ready start
        (fun event' fd => seen event' fd ∨ (event', fd) = (event, i)) d := by
    intro hnone
    refine ⟨hd.valid, hd.onEvent, hd.keeps, hd.once, fun action event' fd => ?_⟩
    rw [hd.called]
    constructor
    · exact fun h => ⟨Or.inl h.1, h.2⟩
    · rintro ⟨hseen | heq, hset, hbit, haction⟩
      · exact ⟨hseen, hset, hbit, haction⟩
      · cases heq
        rw [hnone hset hbit] at haction
        cases haction
  rw [Libcad.selectEvent, hd.onEvent]
  split
  next action haction =>
    split
    next hboth =>
      have hbit : ready event i = true := (Bool.and_eq_true_iff.mp hboth).2
      have hset := hready event i hbit
      obtain ⟨d', hcall, -, hon, -, hcalls⟩ :=
        selector_total.call hrange action (some (event, i)) hd.valid
      obtain ⟨hvalid, asked, -, hwatches⟩ := selector_adds.call hd.valid hcall
      refine ⟨d', hcall, hvalid, hon.trans hd.onEvent,
        fun event' fd h => (hwatches event' fd).mpr
          (Or.inl (hd.keeps event' fd h)), ?_, fun action' event' fd => ?_⟩
      · rw [hcalls, List.filterMap_append]
        refine List.nodup_append.mpr
          ⟨hd.once, List.pairwise_singleton _ _, ?_⟩
        intro a ha b hb heq
        rw [List.mem_singleton.mp hb] at heq
        subst heq
        obtain ⟨⟨action', about⟩, hmem, habout⟩ := List.mem_filterMap.mp ha
        cases (habout : about = some (event, i))
        exact hnew ((hd.called action' event i).mp hmem).1
      · rw [hcalls, List.mem_append, hd.called, List.mem_singleton]
        constructor
        · rintro (h | h)
          · exact ⟨Or.inl h.1, h.2⟩
          · cases h
            exact ⟨Or.inr rfl, hset, hbit, haction⟩
        · rintro ⟨hseen | heq, hset', hbit', haction'⟩
          · exact Or.inl ⟨hseen, hset', hbit', haction'⟩
          · cases heq
            rw [haction] at haction'
            cases haction'
            exact Or.inr rfl
    next hneither =>
      refine ⟨d, returns_pure_self _, hskip fun hset hbit => ?_⟩
      have hlive := (hd.keeps event i
        ⟨hset, Int.lt_add_one_of_le (hstart.2 event i hset).2⟩).1
      rw [hlive, hbit] at hneither
      exact absurd rfl hneither
  next hnone => exact ⟨d, returns_pure_self _, hskip fun _ _ => hnone⟩

/-- A round goes through the three events of a descriptor. -/
theorem Selecting.selectStep (hrange : ∀ calls, InRange (behaviour calls))
    (hstart : start.fd.Valid)
    (hready : ∀ event fd, ready event fd = true →
      start.fd.sets event fd = true)
    {d : Dispatch κ SelectorFds} {i : Int}
    (hd : Selecting ready start (fun _ fd => fd < i) d)
    (hle : i ≤ d.this.fd.max) :
    ∃ d', Returns (Libcad.selectStep behaviour ready (i, d))
        (.inl (i + 1, d')) ∧
      Selecting ready start (fun _ fd => fd < i + 1) d' := by
  have htest := fun event {seen : Event → Int → Prop}
      {d : Dispatch κ SelectorFds} (hd : Selecting ready start seen d) =>
    @Selecting.selectEvent _ _ _ _ hrange hstart hready _ _ event i hd
  obtain ⟨a, hread, ha⟩ := htest .read hd (Int.lt_irrefl i)
  obtain ⟨b, hwrite, hb⟩ := htest .write ha (by simp)
  obtain ⟨c, hexception, hc⟩ := htest .exception hb (by simp)
  refine ⟨c, ?_, hc.valid, hc.onEvent, hc.keeps, hc.once, ?_⟩
  · rw [Libcad.selectStep, if_pos hle]
    exact hread.bind (hwrite.bind (hexception.bind (returns_pure_self _)))
  · intro action event fd
    have hseen : (((fd < i ∨ (event, fd) = (.read, i)) ∨
        (event, fd) = (.write, i)) ∨ (event, fd) = (.exception, i)) ↔
        fd < i + 1 := by
      rw [Int.lt_add_one_iff]
      cases event <;> simp <;> omega
    rw [hc.called, hseen]

/-- The whole dispatch goes through all descriptors that were registered. -/
theorem Selecting.loop (hrange : ∀ calls, InRange (behaviour calls))
    (hstart : start.fd.Valid)
    (hready : ∀ event fd, ready event fd = true →
      start.fd.sets event fd = true) :
    ∃ d', Returns (Proc.loop (Libcad.selectStep behaviour ready)
        (0, start.dispatch)) d' ∧
      Selecting ready start (fun _ _ => True) d' := by
  refine Proc.loop_returns
    (I := fun s => 0 ≤ s.1 ∧ s.1 ≤ fdSetSize ∧
      Selecting ready start (fun _ fd => fd < s.1) s.2)
    (Q := Selecting ready start fun _ _ => True)
    (fun s => (fdSetSize - s.1).toNat) ?_ ?_
  · rintro ⟨i, d⟩ ⟨hzero, hsize, hd⟩
    dsimp only at hzero hsize hd
    by_cases hle : i ≤ d.this.fd.max
    · obtain ⟨d', hstep, hd'⟩ := hd.selectStep hrange hstart hready hle
      have hmax := hd.valid.1.2
      refine Or.inl ⟨_, hstep, ⟨by omega, by omega, hd'⟩, ?_⟩
      dsimp only
      omega
    · refine Or.inr ⟨d, ?_, hd.valid, hd.onEvent, hd.keeps, hd.once, ?_⟩
      · rw [Libcad.selectStep, if_neg hle]
        exact returns_pure_self _
      · intro action event fd
        rw [hd.called]
        refine ⟨fun h => ⟨trivial, h.2⟩, fun h => ⟨?_, h.2⟩⟩
        have hfd := (hstart.2 event fd h.2.1).2
        have hlive := hd.keeps event fd ⟨h.2.1, by omega⟩
        have hbound := hlive.2
        omega
  · refine ⟨Int.le_refl 0, (by decide : (0 : Int) ≤ fdSetSize), hstart, rfl,
      fun _ _ h => h, List.Pairwise.nil,
      fun action event fd => iff_of_false List.not_mem_nil ?_⟩
    rintro ⟨hlt, hset, -⟩
    have hfd := (hstart.2 event fd hset).1
    dsimp only at hlt
    omega

theorem waitSelector_right {pselect : Pselect} (hsound : pselect.Sound)
    (hrange : ∀ calls, InRange (behaviour calls)) (hstart : start.fd.Valid)
    {registered : List (Event × Int)}
    (hregistered : ∀ event fd,
      start.fd.Watches event fd ↔ (event, fd) ∈ registered) :
    SelectorRight pselect behaviour registered start := by
  let out := pselect (start.fd.max + 1) start.fd.sets start.timeout
  by_cases hzero : out.res = 0
  · obtain ⟨d', hcall, -, hnone⟩ :=
      @Total.callTimeout _ _ _ _ selector_total _ hrange start hstart
    refine ⟨out.res, d'.zero, ?_, callsRight_of_none ?_ hnone⟩
    · rw [waitSelector, if_pos hzero]
      exact hcall.bind (returns_pure_self _)
    · rintro event fd ⟨hpos, -⟩
      exact absurd hzero (by dsimp only [out]; omega)
  · by_cases hpos : 0 < out.res
    · obtain ⟨d', hloop, hd'⟩ := @Selecting.loop _ _ out.ready _ hrange
        hstart fun event fd => hsound _ _ _ event fd
      refine ⟨out.res, d'.zero, ?_, hd'.once, fun action event fd => ?_⟩
      · rw [waitSelector, if_neg hzero, if_pos hpos]
        exact hloop.bind (returns_pure_self _)
      · have hset : start.fd.sets event fd = true ↔
            start.fd.Watches event fd :=
          ⟨fun h => ⟨h, Int.lt_add_one_of_le (hstart.2 event fd h).2⟩,
            fun h => h.1⟩
        refine (hd'.called action event fd).trans ?_
        rw [hset, hregistered]
        exact ⟨fun h => ⟨h.2.1, ⟨hpos, h.2.2.1⟩, h.2.2.2⟩,
          fun h => ⟨trivial, h.1, h.2.1.2, h.2.2⟩⟩
    · refine ⟨out.res, start.dispatch.zero, ?_, callsRight_of_none ?_ nofun⟩
      · rw [waitSelector, if_neg hzero, if_neg hpos]
        exact returns_pure_self _
      · exact fun event fd h => hpos h.1

end

/-- The descriptors of the elements are below `FD_SETSIZE`, and the block has
room for no more than twice as many. -/
structure PollArray.Small (this : PollArray) : Prop where
  valid : this.Valid
  inRange : ∀ fd ∈ this.entries.map Pollfd.fd, 0 ≤ fd ∧ fd < fdSetSize
  capacity_le : this.content.length ≤ 2048

/-- There are no more descriptors than numbers below `FD_SETSIZE`. -/
theorem length_le_of_inRange {fds : List Int} (hnodup : fds.Nodup)
    (hrange : ∀ fd ∈ fds, 0 ≤ fd ∧ fd < fdSetSize) : fds.length ≤ 1024 := by
  have hsubset : fds ⊆ (List.range 1024).map Int.ofNat := by
    intro fd hfd
    obtain ⟨hnonneg, hlt⟩ := hrange fd hfd
    rw [fdSetSize] at hlt
    refine List.mem_map.mpr ⟨fd.toNat, List.mem_range.mpr (by omega), ?_⟩
    exact Int.toNat_of_nonneg hnonneg
  have hle := (hnodup.subperm hsubset).length_le
  rwa [List.length_map, List.length_range] at hle

theorem PollArray.grow_total {this : PollArray}
    (h : this.content.length ≤ 1024) :
    ∃ this', Returns this.grow this' ∧ this'.content.length ≤ 2048 := by
  rw [PollArray.grow]
  split
  next => exact ⟨_, ⟨0, rfl⟩, by simp⟩
  next =>
    have hdouble : this.content.length * 2 ≤ intMax := by
      rw [intMax]
      omega
    have hsize : this.content.length * 2 * sizeofPollfd ≤ intMax := by
      rw [intMax, sizeofPollfd]
      omega
    refine ⟨_, (intMul_returns hdouble).bind ((intMul_returns hsize).bind
      (returns_pure_self _)), ?_⟩
    rw [List.length_append, List.length_replicate]
    omega

theorem PollArray.insertLast_total {this : PollArray} (value : Pollfd)
    (hcapacity : this.content.length ≤ 2048) (hcount : this.count < 1024) :
    ∃ i this', Returns (this.insertLast value) (i, this') ∧
      this'.content.length ≤ 2048 := by
  have hroom : ∃ grown : PollArray, Returns
      (if this.count = this.content.length then this.grow else pure this)
      grown ∧ grown.content.length ≤ 2048 := by
    split
    next hfull => exact PollArray.grow_total (by omega)
    next => exact ⟨this, returns_pure_self _, hcapacity⟩
  obtain ⟨grown, hgrown, hle⟩ := hroom
  refine ⟨_, _, hgrown.bind (returns_pure_self _), ?_⟩
  rw [List.length_set]
  exact hle

theorem poller_total : Total setPoller PollArray.Small := by
  intro event this fd hsmall hin
  have hfind : ∃ i found, Returns (findPollfd this fd) (i, found) ∧
      found.content.length ≤ 2048 := by
    rw [findPollfd]
    split
    next i _ => exact ⟨i, this, returns_pure_self _, hsmall.capacity_le⟩
    next hnone =>
      have hnew := List.findIdx?_eq_none_iff.mp hnone
      refine PollArray.insertLast_total _ hsmall.capacity_le ?_
      have hle := @length_le_of_inRange (fd :: this.entries.map Pollfd.fd)
        (List.nodup_cons.mpr ⟨fun hmem => ?_, hsmall.valid.nodup⟩) ?_
      · rw [List.length_cons, List.length_map, hsmall.valid.count_eq] at hle
        exact hle
      · obtain ⟨p, hp, hfd⟩ := List.mem_map.mp hmem
        have hne := hnew p hp
        simp [hfd] at hne
      · intro fd' hmem
        rcases List.mem_cons.mp hmem with rfl | hmem
        · exact hin
        · exact hsmall.inRange fd' hmem
  obtain ⟨i, found, hfind, hcapacity⟩ := hfind
  have hset : ∃ this', Returns (setPoller event this fd) this' ∧
      this'.content.length ≤ 2048 := by
    refine ⟨_, hfind.bind (returns_pure_self _), ?_⟩
    rw [List.length_modify]
    exact hcapacity
  obtain ⟨this', hset, hcapacity'⟩ := hset
  obtain ⟨hvalid, found', heq, before, p, after, hsplit, hfd, hentries⟩ :=
    setPoller_returns hsmall.valid hset
  refine ⟨this', hset, hvalid, fun fd' hmem => ?_, hcapacity'⟩
  have hmem' : fd' ∈ found'.entries.map Pollfd.fd := by
    rw [hentries, List.map_append, List.map_cons] at hmem
    rw [hsplit, List.map_append, List.map_cons]
    exact hmem
  rcases heq with rfl | heq
  · exact hsmall.inRange fd' hmem'
  · rw [heq, List.map_append] at hmem'
    rcases List.mem_append.mp hmem' with hold | hnew
    · exact hsmall.inRange fd' hold
    · rw [List.map_singleton] at hnew
      rw [List.mem_singleton.mp hnew]
      exact hin

section

variable {κ : Type} {behaviour : Behaviour κ}
  {start : EventsImpl κ PollArray} {ppoll : Ppoll}

/-- An entry with the answer of `ppoll`. -/
def Pollfd.answered (p : Pollfd) (revents : BitVec 16) : Pollfd :=
  { p with revents := revents }

/-- The answer of `ppoll` reaches the elements only. -/
theorem PollArray.answer_content {this : PollArray} {free : Nat}
    (revents : Nat → BitVec 16) (hvalid : this.Valid)
    (hcontent : this.content =
      this.entries ++ List.replicate free Pollfd.zero) :
    (this.answer revents).content =
      (this.entries.mapIdx fun i p => p.answered (revents i)) ++
        List.replicate free Pollfd.zero := by
  rw [PollArray.answer]
  dsimp only
  rw [hcontent, List.mapIdx_append]
  congr 1
  · refine List.ext_getElem? fun i => ?_
    rw [List.getElem?_mapIdx, List.getElem?_mapIdx]
    by_cases hi : i < this.count
    · simp only [if_pos hi]
      rfl
    · rw [List.getElem?_eq_none (by rw [hvalid.count_eq]; omega)]
      rfl
  · refine List.ext_getElem? fun i => ?_
    have hbeyond : ¬ i + this.count < this.count := by omega
    rw [List.getElem?_mapIdx, hvalid.count_eq]
    simp only [if_neg hbeyond, Option.map_id']

theorem PollArray.answer_entries {this : PollArray}
    (revents : Nat → BitVec 16) (hvalid : this.Valid) :
    (this.answer revents).entries =
      this.entries.mapIdx fun i p => p.answered (revents i) := by
  obtain ⟨free, hcontent⟩ := hvalid.content_eq
  rw [PollArray.entries, PollArray.answer_content revents hvalid hcontent]
  refine List.take_left' ?_
  rw [List.length_mapIdx]
  exact hvalid.count_eq

theorem PollArray.answer_fds {this : PollArray} (revents : Nat → BitVec 16)
    (hvalid : this.Valid) : (this.answer revents).entries.map Pollfd.fd =
      this.entries.map Pollfd.fd := by
  rw [PollArray.answer_entries revents hvalid]
  refine List.ext_getElem? fun i => ?_
  rw [List.getElem?_map, List.getElem?_mapIdx, List.getElem?_map,
    Option.map_map]
  rfl

theorem PollArray.answer_valid {this : PollArray}
    (revents : Nat → BitVec 16) (hvalid : this.Valid) :
    (this.answer revents).Valid := by
  have hentries := PollArray.answer_entries revents hvalid
  obtain ⟨free, hcontent⟩ := hvalid.content_eq
  refine ⟨⟨free, ?_⟩, ?_, ?_⟩
  · rw [hentries]
    exact PollArray.answer_content revents hvalid hcontent
  · rw [hentries, List.length_mapIdx]
    exact hvalid.count_eq
  · rw [PollArray.answer_fds revents hvalid]
    exact hvalid.nodup

theorem PollArray.answer_small {this : PollArray}
    (revents : Nat → BitVec 16) (hsmall : this.Small) :
    (this.answer revents).Small where
  valid := PollArray.answer_valid revents hsmall.valid
  inRange := by
    rw [PollArray.answer_fds revents hsmall.valid]
    exact hsmall.inRange
  capacity_le := by
    rw [PollArray.answer]
    dsimp only
    rw [List.length_mapIdx]
    exact hsmall.capacity_le

theorem call_looked {set : Event → PollArray → Int → Proc PollArray}
    {action : κ} {about : Option (Event × Int)} {d d' : Dispatch κ PollArray}
    (h : Returns (d.call set behaviour action about) d') :
    d'.looked = d.looked := by
  obtain ⟨fd, -, h⟩ := returns_bind.mp h
  cases returns_pure.mp h
  rfl

theorem pollEvent_looked {base : Option Nat} {event : Event} {i : Nat}
    {d d' : Dispatch κ PollArray}
    (h : Returns (pollEvent behaviour base event i d) d') :
    d'.looked = d.looked := by
  obtain ⟨p, -, h⟩ := returns_bind.mp h
  split at h
  next =>
    obtain ⟨action, -, h⟩ := returns_bind.mp h
    exact call_looked h
  next => rw [returns_pure.mp h]

theorem pollStep_looked {base : Option Nat} {n i : Nat}
    {d : Dispatch κ PollArray} {s : Nat × Dispatch κ PollArray}
    (h : Returns (pollStep behaviour base n (i, d)) (.inl s)) :
    i ≤ n ∧ s.1 = i + 1 ∧ s.2.looked = d.looked ++ [i] := by
  rw [pollStep] at h
  split at h
  next hle =>
    refine ⟨hle, ?_⟩
    obtain ⟨p, -, h⟩ := returns_bind.mp h
    split at h
    next =>
      obtain ⟨a, ha, h⟩ := returns_bind.mp h
      obtain ⟨b, hb, h⟩ := returns_bind.mp h
      obtain ⟨c, hc, h⟩ := returns_bind.mp h
      cases returns_pure.mp h
      refine ⟨rfl, ?_⟩
      rw [pollEvent_looked hc, pollEvent_looked hb, pollEvent_looked ha]
    next =>
      cases returns_pure.mp h
      exact ⟨rfl, rfl⟩
  next => cases returns_pure.mp h

theorem pollStep_exit {base : Option Nat} {n i : Nat}
    {d d' : Dispatch κ PollArray}
    (h : Returns (pollStep behaviour base n (i, d)) (.inr d')) :
    n < i ∧ d' = d := by
  rw [pollStep] at h
  split at h
  next =>
    obtain ⟨p, -, h⟩ := returns_bind.mp h
    split at h
    next =>
      obtain ⟨a, -, h⟩ := returns_bind.mp h
      obtain ⟨b, -, h⟩ := returns_bind.mp h
      obtain ⟨c, -, h⟩ := returns_bind.mp h
      cases returns_pure.mp h
    next => cases returns_pure.mp h
  next hlt =>
    cases returns_pure.mp h
    exact ⟨Nat.lt_of_not_le hlt, rfl⟩

/-- The loop always comes to the entry after the last. -/
theorem waitPoller_looks {res : Int} {d : Dispatch κ PollArray}
    (h : Returns (waitPoller ppoll behaviour start) (res, d))
    (hpos : 0 < (ppoll start.fd.entries start.timeout).res) :
    start.fd.count ∈ d.looked := by
  rw [waitPoller, if_neg (Int.ne_of_gt hpos), if_pos hpos] at h
  obtain ⟨d', hloop, h⟩ := returns_bind.mp h
  cases returns_pure.mp h
  refine Returns.loop_invariant
    (I := fun s => ∀ i, i < s.1 → i ∈ s.2.looked)
    (Q := fun d => start.fd.count ∈ d.looked) ?_ ?_ nofun hloop
  · rintro ⟨i, d⟩ s hs hstep j hj
    obtain ⟨-, hi, hlooked⟩ := pollStep_looked hstep
    rw [hlooked]
    rcases Nat.lt_succ_iff_lt_or_eq.mp (hi ▸ hj : j < i + 1) with hlt | rfl
    · exact List.mem_append_left _ (hs j hlt)
    · exact List.mem_append_right _ (List.mem_singleton_self j)
  · rintro ⟨i, d⟩ r hs hstep
    obtain ⟨hlt, rfl⟩ := pollStep_exit hstep
    exact hs _ hlt

/-- The wait of the poller is right when nothing is reported, and never
otherwise. -/
theorem pollerRight_iff (hrange : ∀ calls, InRange (behaviour calls))
    (hsmall : start.fd.Small) {registered : List (Event × Int)} :
    PollerRight ppoll behaviour registered start ↔
      (ppoll start.fd.entries start.timeout).res ≤ 0 := by
  constructor
  · rintro ⟨res, d, hwait, -, hlooked⟩
    by_contra hpos
    exact Nat.lt_irrefl _ (hlooked _ (waitPoller_looks hwait (by omega)))
  · intro hle
    have hnone : ∀ event fd, ¬ ppoll.Reports start event fd :=
      fun event fd h => absurd h.1 (Int.not_lt.mpr hle)
    let out := ppoll start.fd.entries start.timeout
    let next : EventsImpl κ PollArray :=
      { start with fd := start.fd.answer out.revents }
    by_cases hzero : out.res = 0
    · obtain ⟨d, hcall, hlooked, hcalls⟩ :=
        @Total.callTimeout _ _ _ _ poller_total _ hrange next
          (PollArray.answer_small _ hsmall)
      refine ⟨out.res, d.clear, ?_, callsRight_of_none hnone hcalls, ?_⟩
      · rw [waitPoller, if_pos hzero]
        exact hcall.bind (returns_pure_self _)
      · intro i hi
        rw [Dispatch.clear] at hi
        rw [hlooked] at hi
        cases hi
    · refine ⟨out.res, next.dispatch.clear, ?_, callsRight_of_none hnone nofun,
        nofun⟩
      rw [waitPoller, if_neg hzero, if_neg (by omega)]
      exact returns_pure_self _

/-- The descriptors of the elements with what was reported for them. -/
def PollArray.marks (this : PollArray) : List (Int × BitVec 16) :=
  this.entries.map fun p => (p.fd, p.revents)

/-- A registration during a dispatch leaves what was reported. -/
theorem setPoller_marks {event : Event} {this this' : PollArray} {fd : Int}
    (hvalid : this.Valid) (h : Returns (setPoller event this fd) this') :
    this'.marks = this.marks ∨ this'.marks = this.marks ++ [(fd, 0)] := by
  obtain ⟨-, found, heq, before, p, after, hsplit, -, hentries⟩ :=
    setPoller_returns hvalid h
  have hmarks : this'.marks = found.marks := by
    rw [PollArray.marks, PollArray.marks, hentries, hsplit, List.map_append,
      List.map_append, List.map_cons, List.map_cons]
    rfl
  rcases heq with rfl | heq
  · exact Or.inl hmarks
  · right
    rw [hmarks, PollArray.marks, heq, List.map_append]
    rfl

/-- The reports are there, followed by entries without a report. -/
def PollArray.Bears (this : PollArray) (marks : List (Int × BitVec 16)) :
    Prop :=
  this.Valid ∧ ∃ more, this.marks = marks ++ more ∧ ∀ m ∈ more, m.2 = 0

theorem PollArray.Bears.registerAll {marks : List (Int × BitVec 16)}
    (asked : List (Event × Int)) :
    ∀ {this this' : PollArray}, this.Bears marks →
      Returns (Libcad.registerAll setPoller asked this) this' →
      this'.Bears marks := by
  induction asked with
  | nil =>
      intro this this' hthis h
      exact returns_pure.mp h ▸ hthis
  | cons r asked ih =>
      intro this this' hthis h
      obtain ⟨event, fd⟩ := r
      obtain ⟨next, hset, hrest⟩ := returns_bind.mp h
      obtain ⟨hvalid, more, hmarks, hmore⟩ := hthis
      refine ih ⟨(setPoller_returns hvalid hset).1, ?_⟩ hrest
      rcases setPoller_marks hvalid hset with heq | heq
      · exact ⟨more, heq.trans hmarks, hmore⟩
      · refine ⟨more ++ [(fd, 0)], ?_, fun m hm => ?_⟩
        · rw [heq, hmarks, List.append_assoc]
        · rcases List.mem_append.mp hm with hm | hm
          · exact hmore m hm
          · rw [List.mem_singleton.mp hm]

theorem PollArray.Bears.peek {marks : List (Int × BitVec 16)}
    {base : Option Nat} {i : Nat} {d : Dispatch κ PollArray} {p : Pollfd}
    (hbears : d.this.fd.Bears marks) (h : Returns (Libcad.peek base i d) p) :
    marks[i]? = some (p.fd, p.revents) ∨
      marks[i]? = none ∧ p.revents = 0 := by
  have hp := returns_ofOption.mp h
  split at hp
  next =>
    obtain ⟨hvalid, more, hmarks, hmore⟩ := hbears
    obtain ⟨free, hcontent⟩ := hvalid.content_eq
    have hall : (d.this.fd.content.map fun p => (p.fd, p.revents)) =
        marks ++ (more ++ List.replicate free (0, 0)) := by
      rw [hcontent, List.map_append, List.map_replicate, ← List.append_assoc,
        ← hmarks]
      rfl
    have hi : (marks ++ (more ++ List.replicate free (0, 0)))[i]? =
        some (p.fd, p.revents) := by
      rw [← hall, List.getElem?_map, hp, Option.map_some]
    by_cases hlt : i < marks.length
    · rw [List.getElem?_append_left hlt] at hi
      exact Or.inl hi
    · refine Or.inr ⟨List.getElem?_eq_none (by omega), ?_⟩
      rw [List.getElem?_append_right (by omega)] at hi
      rcases List.mem_append.mp (List.mem_of_getElem? hi) with hm | hm
      · exact hmore _ hm
      · exact congrArg Prod.snd (List.eq_of_mem_replicate hm)
  next => cases hp

/-- The calls of the poller when it has been through the events of the entries
`seen`. -/
structure Polling (marks : List (Int × BitVec 16))
    (onEvent : Event → Option κ) (seen : Event → Nat → Prop)
    (d : Dispatch κ PollArray) : Prop where
  bears : d.this.fd.Bears marks
  handlers : d.this.onEvent = onEvent
  called : ∀ action event fd, ⟨action, some (event, fd)⟩ ∈ d.calls ↔
    ∃ i revents, seen event i ∧ marks[i]? = some (fd, revents) ∧
      revents &&& event.mask ≠ 0 ∧ onEvent event = some action
  handled : ∀ event i fd revents, seen event i →
    marks[i]? = some (fd, revents) → revents &&& event.mask ≠ 0 →
    onEvent event ≠ none

section

variable {marks : List (Int × BitVec 16)} {onEvent : Event → Option κ}
  {seen : Event → Nat → Prop} {d d' : Dispatch κ PollArray}

/-- Where nothing is reported there is nothing to do. -/
theorem Polling.skip (hd : Polling marks onEvent seen d)
    {more : Event → Nat → Prop}
    (hnone : ∀ event i fd revents, more event i →
      marks[i]? = some (fd, revents) → revents &&& event.mask = 0) :
    Polling marks onEvent (fun event i => seen event i ∨ more event i) d where
  bears := hd.bears
  handlers := hd.handlers
  called action event fd := by
    rw [hd.called]
    constructor
    · rintro ⟨i, revents, hseen, h⟩
      exact ⟨i, revents, Or.inl hseen, h⟩
    · rintro ⟨i, revents, hseen | hmore, hmark, hbit, haction⟩
      · exact ⟨i, revents, hseen, hmark, hbit, haction⟩
      · exact absurd (hnone event i fd revents hmore hmark) hbit
  handled event i fd revents hseen hmark hbit := by
    rcases hseen with hseen | hmore
    · exact hd.handled event i fd revents hseen hmark hbit
    · exact absurd (hnone event i fd revents hmore hmark) hbit

/-- A test that returns has called the handler of what is reported. -/
theorem Polling.pollEvent {base : Option Nat} {event : Event} {i : Nat}
    (hd : Polling marks onEvent seen d)
    (h : Returns (Libcad.pollEvent behaviour base event i d) d') :
    Polling marks onEvent
      (fun event' j => seen event' j ∨ (event', j) = (event, i)) d' := by
  obtain ⟨p, hpeek, h⟩ := returns_bind.mp h
  have hmark := hd.bears.peek hpeek
  split at h
  next hbit =>
    have hp : marks[i]? = some (p.fd, p.revents) := by
      rcases hmark with hmark | ⟨-, hzero⟩
      · exact hmark
      · rw [hzero] at hbit
        exact absurd BitVec.zero_and hbit
    obtain ⟨action, haction, h⟩ := returns_bind.mp h
    rw [returns_ofOption, hd.handlers] at haction
    obtain ⟨fd, hregister, h⟩ := returns_bind.mp h
    cases returns_pure.mp h
    refine ⟨hd.bears.registerAll _ hregister, hd.handlers,
      fun action' event' fd' => ?_, fun event' j fd' revents => ?_⟩
    · rw [List.mem_append, hd.called, List.mem_singleton]
      constructor
      · rintro (⟨j, revents, hseen, h⟩ | heq)
        · exact ⟨j, revents, Or.inl hseen, h⟩
        · cases heq
          exact ⟨i, p.revents, Or.inr rfl, hp, hbit, haction⟩
      · rintro ⟨j, revents, hseen | heq, hmark', hbit', haction'⟩
        · exact Or.inl ⟨j, revents, hseen, hmark', hbit', haction'⟩
        · cases heq
          rw [hp] at hmark'
          cases hmark'
          rw [haction] at haction'
          cases haction'
          exact Or.inr rfl
    · rintro (hseen | heq) hmark' hbit'
      · exact hd.handled event' j fd' revents hseen hmark' hbit'
      · cases heq
        rw [haction]
        nofun
  next hbit =>
    cases returns_pure.mp h
    refine hd.skip fun event' j fd revents heq hmark' => ?_
    cases heq
    rcases hmark with hmark | ⟨hnone, -⟩
    · rw [hmark] at hmark'
      cases hmark'
      exact not_not.mp hbit
    · rw [hnone] at hmark'
      cases hmark'

/-- A round goes through the three events of an entry. -/
theorem Polling.pollStep {base : Option Nat} {n i : Nat}
    {s : Nat × Dispatch κ PollArray}
    (hd : Polling marks onEvent (fun _ j => j < i) d)
    (h : Returns (Libcad.pollStep behaviour base n (i, d)) (.inl s)) :
    Polling marks onEvent (fun _ j => j < s.1) s.2 := by
  have hlook : Polling marks onEvent (fun _ j => j < i)
      { d with looked := d.looked ++ [i] } :=
    ⟨hd.bears, hd.handlers, hd.called, hd.handled⟩
  rw [Libcad.pollStep] at h
  split at h
  next =>
    obtain ⟨p, hpeek, h⟩ := returns_bind.mp h
    split at h
    next =>
      obtain ⟨a, ha, h⟩ := returns_bind.mp h
      obtain ⟨b, hb, h⟩ := returns_bind.mp h
      obtain ⟨c, hc, h⟩ := returns_bind.mp h
      cases returns_pure.mp h
      have hall := ((hlook.pollEvent ha).pollEvent hb).pollEvent hc
      have hseen : (fun (event : Event) (j : Nat) => ((j < i ∨
          (event, j) = (.read, i)) ∨ (event, j) = (.write, i)) ∨
          (event, j) = (.exception, i)) = fun _ j => j < i + 1 := by
        funext event j
        rw [Nat.lt_succ_iff_lt_or_eq]
        cases event <;> simp
      rwa [hseen] at hall
    next hzero =>
      cases returns_pure.mp h
      have hall := @Polling.skip _ _ _ _ _ hlook (fun _ j => j = i) ?_
      · have hseen : (fun (_ : Event) (j : Nat) => j < i ∨ j = i) =
            fun _ j => j < i + 1 := by
          funext _ j
          rw [Nat.lt_succ_iff_lt_or_eq]
        rwa [hseen] at hall
      · rintro event j fd revents rfl hmark
        rcases hlook.bears.peek hpeek with hp | ⟨hnone, -⟩
        · rw [hmark] at hp
          cases hp
          rw [not_not.mp hzero]
          exact BitVec.zero_and
        · rw [hnone] at hmark
          cases hmark
  next => cases returns_pure.mp h

end

/-- A wait of the poller that reports something and returns has called the
handlers of all that was reported, asked for or not. -/
theorem waitPoller_calls {res : Int} {d : Dispatch κ PollArray}
    (hvalid : start.fd.Valid)
    (h : Returns (waitPoller ppoll behaviour start) (res, d))
    (hpos : 0 < (ppoll start.fd.entries start.timeout).res) :
    (∀ action event fd, ⟨action, some (event, fd)⟩ ∈ d.calls ↔
      ppoll.Reports start event fd ∧ start.onEvent event = some action) ∧
    ∀ event fd, ppoll.Reports start event fd →
      start.onEvent event ≠ none := by
  let out := ppoll start.fd.entries start.timeout
  let marks := (start.fd.answer out.revents).marks
  have hreports : ∀ event fd, ppoll.Reports start event fd ↔
      ∃ (i : Nat) (revents : BitVec 16), marks[i]? = some (fd, revents) ∧
        revents &&& event.mask ≠ 0 := by
    intro event fd
    have hmarks : ∀ i : Nat, marks[i]? =
        start.fd.entries[i]?.map fun p => (p.fd, out.revents i) := by
      intro i
      dsimp only [marks]
      rw [PollArray.marks, PollArray.answer_entries _ hvalid,
        List.getElem?_map, List.getElem?_mapIdx, Option.map_map]
      rfl
    constructor
    · rintro ⟨-, i, p, hp, rfl, hbit⟩
      exact ⟨i, out.revents i, by rw [hmarks, hp]; rfl, hbit⟩
    · rintro ⟨i, revents, hmark, hbit⟩
      rw [hmarks] at hmark
      obtain ⟨p, hp, heq⟩ := Option.map_eq_some_iff.mp hmark
      cases heq
      exact ⟨hpos, i, p, hp, rfl, hbit⟩
  rw [waitPoller, if_neg (Int.ne_of_gt hpos), if_pos hpos] at h
  obtain ⟨d', hloop, h⟩ := returns_bind.mp h
  cases returns_pure.mp h
  have hlength : marks.length = start.fd.count := by
    dsimp only [marks]
    rw [PollArray.marks, PollArray.answer_entries _ hvalid, List.length_map,
      List.length_mapIdx, hvalid.count_eq]
  have hpolling : Polling marks start.onEvent (fun _ _ => True) d' := by
    refine Returns.loop_invariant
      (I := fun s => Polling marks start.onEvent (fun _ j => j < s.1) s.2)
      (Q := Polling marks start.onEvent fun _ _ => True)
      ?_ ?_ ?_ hloop
    · rintro ⟨i, d⟩ s hs hstep
      exact hs.pollStep hstep
    · rintro ⟨i, d⟩ r hs hstep
      obtain ⟨hlt, rfl⟩ := pollStep_exit hstep
      -- The entries the loop did not come to are not in the array.
      have hskip := @Polling.skip _ _ _ _ _ hs (fun _ j => ¬ j < i)
        fun event j fd revents hj hmark => by
          have hbound := (List.getElem?_eq_some_iff.mp hmark).1
          omega
      have hseen : (fun (_ : Event) (j : Nat) => j < i ∨ ¬ j < i) =
          fun _ _ => True := by
        funext _ j
        exact eq_true (Decidable.em _)
      rwa [hseen] at hskip
    · refine ⟨⟨PollArray.answer_valid _ hvalid, [], (List.append_nil _).symm,
        nofun⟩,
        rfl, fun action event fd => iff_of_false nofun ?_, nofun⟩
      rintro ⟨i, revents, hlt, -⟩
      exact Nat.not_lt_zero i hlt
  constructor
  · intro action event fd
    refine (hpolling.called action event fd).trans ?_
    rw [hreports]
    constructor
    · rintro ⟨i, revents, -, hmark, hbit, haction⟩
      exact ⟨⟨i, revents, hmark, hbit⟩, haction⟩
    · rintro ⟨⟨i, revents, hmark, hbit⟩, haction⟩
      exact ⟨i, revents, trivial, hmark, hbit, haction⟩
  · intro event fd hreport
    obtain ⟨i, revents, hmark, hbit⟩ := (hreports event fd).mp hreport
    exact hpolling.handled event i fd revents trivial hmark hbit

end

theorem newPoller_small {κ : Type} {onTimeout : Option κ}
    {onEvent : Event → Option κ} :
    (cadNewEventsPoller onTimeout onEvent).fd.Small :=
  ⟨newPoller_valid, nofun, Nat.zero_le _⟩

/-- After any registrations the selector calls the right handlers, and the
poller does it looking at registered entries exactly when `ppoll` does not
return a positive result. -/
theorem events_right_iff {κ : Type} (onTimeout : Option κ)
    (onEvent : Event → Option κ) (ops : List (Setup κ))
    (hops : InRange (registrations ops)) (pselect : Pselect)
    (hsound : pselect.Sound) (ppoll : Ppoll) (behaviour : Behaviour κ)
    (hrange : ∀ calls, InRange (behaviour calls)) :
    ∃ selector poller,
      Returns ((cadNewEventsSelector onTimeout onEvent).setup setSelector ops)
        selector ∧
      Returns ((cadNewEventsPoller onTimeout onEvent).setup setPoller ops)
        poller ∧
      SelectorRight pselect behaviour (registrations ops) selector ∧
      (PollerRight ppoll behaviour (registrations ops) poller ↔
        (ppoll poller.fd.entries poller.timeout).res ≤ 0) := by
  obtain ⟨selector, hselector, -⟩ :=
    selector_total.setup ops newSelector_valid hops
  obtain ⟨poller, hpoller, hsmall⟩ :=
    poller_total.setup ops newPoller_small hops
  obtain ⟨hvalid, hwatches⟩ :=
    selector_adds.setup ops newSelector_valid hselector
  refine ⟨selector, poller, hselector, hpoller,
    waitSelector_right hsound hrange hvalid fun event fd => ?_,
    pollerRight_iff hrange hsmall⟩
  rw [hwatches]
  refine or_iff_right ?_
  rintro ⟨hset, -⟩
  cases hset

/-- Descriptor 0 is registered for reading with a handler; `pselect` reports it
and `ppoll` times out. -/
theorem events_right_reading :
    ∃ selector poller,
      Returns ((cadNewEventsSelector none fun _ => none).setup setSelector
        [.set .read 0, .onEvent .read (some 7)]) selector ∧
      Returns ((cadNewEventsPoller none fun _ => none).setup setPoller
        [.set .read 0, .onEvent .read (some 7)]) poller ∧
      SelectorRight (fun _ sets _ => ⟨1, sets⟩) (fun _ => []) [(.read, 0)]
        selector ∧
      PollerRight (fun _ _ => ⟨0, fun _ => 0⟩) (fun _ => []) [(.read, 0)]
        poller := by
  obtain ⟨selector, poller, hselector, hpoller, hright, hiff⟩ :=
    events_right_iff none (fun _ => none)
      [.set .read 0, .onEvent .read (some 7)] (by decide)
      (fun _ sets _ => ⟨1, sets⟩) (fun _ _ _ _ _ h => h)
      (fun _ _ => ⟨0, fun _ => 0⟩) (fun _ => []) (fun _ => nofun)
  exact ⟨selector, poller, hselector, hpoller, hright,
    hiff.mpr (Int.le_refl 0)⟩

/-- A descriptor registered for reading: when it is ready, the poller looks
past it, and when it hangs up, the poller calls a handler that is not set. -/
theorem events_not_right :
    ∃ poller : EventsImpl Nat PollArray,
      Returns ((cadNewEventsPoller none fun _ => none).setup setPoller
        [.set .read 0, .onEvent .read (some 7)]) poller ∧
      (¬ PollerRight (fun _ _ => ⟨1, fun _ => pollIn⟩) (fun _ => [])
        [(.read, 0)] poller) ∧
      ¬ PollerRight (fun _ _ => ⟨1, fun _ => pollHup⟩) (fun _ => [])
        [(.read, 0)] poller := by
  let poller : EventsImpl Nat PollArray := {
    fd := ⟨1, [⟨0, 1, 0⟩, Pollfd.zero, Pollfd.zero, Pollfd.zero]⟩,
    timeout := ⟨0, 0⟩, onTimeout := none,
    onEvent := Function.update (fun _ => none) .read (some 7) }
  have hvalid : poller.fd.Valid :=
    ⟨⟨3, rfl⟩, rfl, List.pairwise_singleton _ _⟩
  refine ⟨poller, ⟨0, rfl⟩, ?_, ?_⟩
  · rintro ⟨res, d, hwait, -, hlooked⟩
    exact absurd (hlooked _ (waitPoller_looks hwait (by decide)))
      (Nat.lt_irrefl _)
  · rintro ⟨res, d, hwait, -⟩
    refine (waitPoller_calls hvalid hwait (by decide)).2 .exception 0 ?_ rfl
    exact ⟨by decide, 0, ⟨0, 1, 0⟩, rfl, rfl, by decide⟩

end Libcad
