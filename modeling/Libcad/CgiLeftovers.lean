/-
What the blocks of a response and of its cookies held before: a run that reads
none of it is the run in blocks full of zeros.
-/
import Libcad.CgiHandling
import Libcad.CgiMetaStable
import Libcad.CgiRuns

namespace Libcad

open Proc

/-- The calls that read the value of their cookie. -/
def CookieCall.ReadsValue : CookieCall → Prop
  | .value | .setValue _ _ => True
  | _ => False

/-- A call of the meta variables would read what its block held. -/
def MetaState.Wild {τ : Type} (st : MetaState τ) : MetaCall → Prop
  | .string field => st.this.strings field = .wild
  | .inputAsForm => st.this.inputAsForm = .wild
  | _ => False

def Handling.ReadsValue {τ : Type} (st : Handling τ) (pointer : Nat) :
    ResponseCall → Prop
  | .cookie p call => pointer = p ∧ call.ReadsValue
  | .freeCookie p => pointer = p
  | .setCookie p => ∃ cookie, st.response.cookies.cookie p = some cookie ∧
      st.response.cookies.get cookie.name = some pointer
  | .flush => (∃ name, (name, pointer) ∈ st.response.cookies.jar) ∧
      ∃ cookie, st.response.cookies.cookie pointer = some cookie ∧
        cookie.changed = true
  | _ => False

/-- The value of a live cookie is not what its block held. -/
def CookieJar.Written (this : CookieJar) (pointer : Nat) : Prop :=
  ∀ cookie, this.cookie pointer = some cookie → cookie.value ≠ .wild

/-- The call reads nothing that a block held before. -/
def Handling.Clean {τ : Type} (st : Handling τ) (c : ResponseCall) : Prop :=
  (∀ pointer, st.ReadsValue pointer c → st.response.cookies.Written pointer) ∧
    ∀ call, c = .metaVariables call → ¬ st.metaState.Wild call

/-- `free` reads nothing that a block held before. -/
def Handling.CleanFree {τ : Type} (st : Handling τ) : Prop :=
  (∀ entry ∈ st.response.cookies.jar,
    st.response.cookies.Written entry.2) ∧
    ¬ st.metaState.Wild .inputAsForm

/-- The cookie with what its block held in its value. -/
def Cookie.leave (left : Bool) (this : Cookie) : Cookie :=
  if left then { this with value := .wild } else this

@[simp] theorem Cookie.leave_false (this : Cookie) : this.leave false = this :=
  rfl

@[simp] theorem Cookie.leave_true (this : Cookie) :
    this.leave true = { this with value := .wild } := rfl

@[simp] theorem Cookie.leave_name (left : Bool) (this : Cookie) :
    (this.leave left).name = this.name := by
  cases left <;> rfl

@[simp] theorem Cookie.leave_changed (left : Bool) (this : Cookie) :
    (this.leave left).changed = this.changed := by
  cases left <;> rfl

theorem newCadCgiCookie_leave (left : Bool) (name : Bytes) :
    newCadCgiCookie left name = (newCadCgiCookie false name).leave left := by
  cases left <;> rfl

/-- A cookie answers a call alike and stays alike, unless its value is read and
was not written. -/
theorem Cookie.call_leave {left : Bool} {this : Cookie} {c : CookieCall}
    (hread : c.ReadsValue → left = false) :
    Agree (fun a b => a.1 = b.1 ∧ a.2 = b.2.leave left ∧
        (left = true → b.2.value = this.value))
      ((this.leave left).call c) (this.call c) := by
  cases left with
  | false =>
      refine (Agree.refl _).mono ?_
      rintro a b rfl
      exact ⟨rfl, rfl, nofun⟩
  | true =>
      cases c with
      | value => cases hread trivial
      | setValue allocated value => cases hread trivial
      | setExpires expires =>
          by_cases hage : this.maxAge = 0
          · simp only [Cookie.call, Cookie.setExpires, leave_true, hage,
              ↓reduceIte]
            exact Agree.pure ⟨rfl, rfl, fun _ => rfl⟩
          · simp only [Cookie.call, Cookie.setExpires, leave_true, hage,
              ↓reduceIte]
            exact Agree.pure ⟨rfl, rfl, fun _ => rfl⟩
      | setMaxAge maxAge =>
          by_cases hexpires : this.expires = 0
          · simp only [Cookie.call, Cookie.setMaxAge, leave_true, hexpires,
              ↓reduceIte]
            exact Agree.pure ⟨rfl, rfl, fun _ => rfl⟩
          · simp only [Cookie.call, Cookie.setMaxAge, leave_true, hexpires,
              ↓reduceIte]
            exact Agree.pure ⟨rfl, rfl, fun _ => rfl⟩
      | setDomain allocated domain =>
          cases allocated <;> exact Agree.pure ⟨rfl, rfl, fun _ => rfl⟩
      | setPath allocated path =>
          cases allocated <;> exact Agree.pure ⟨rfl, rfl, fun _ => rfl⟩
      | _ => exact Agree.pure ⟨rfl, rfl, fun _ => rfl⟩

theorem Cookie.call_written {this : Cookie} {c : CookieCall}
    {a : CookieReport × Cookie} (h : Returns (this.call c) a)
    (hread : c.ReadsValue) : this.value ≠ .wild := by
  intro hwild
  cases c with
  | value =>
      obtain ⟨value, hload, -⟩ := returns_bind.mp h
      rw [hwild] at hload
      exact not_returns_undefined hload
  | setValue allocated value =>
      obtain ⟨result, hset, -⟩ := returns_bind.mp h
      obtain ⟨_, hfree, -⟩ := returns_bind.mp hset
      rw [hwild] at hfree
      exact not_returns_undefined hfree
  | _ => exact hread

namespace CookieJar

variable {left : Nat → Bool} {this : CookieJar}

/-- The jar in blocks that held something where `left` says so. -/
def leave (left : Nat → Bool) (this : CookieJar) : CookieJar :=
  { this with
    objects := this.objects.mapIdx fun pointer o =>
      o.map (Cookie.leave (left pointer)) }

/-- Where a block held something, the value of the cookie was not written. -/
def Unset (left : Nat → Bool) (this : CookieJar) : Prop :=
  ∀ pointer cookie, this.cookie pointer = some cookie →
    left pointer = true → cookie.value = .null

@[simp] theorem leave_jar : (this.leave left).jar = this.jar := rfl

@[simp] theorem leave_get (name : Bytes) :
    (this.leave left).get name = this.get name := rfl

@[simp] theorem leave_length :
    (this.leave left).objects.length = this.objects.length :=
  List.length_mapIdx

theorem leave_cookie (pointer : Nat) :
    (this.leave left).cookie pointer =
      (this.cookie pointer).map (Cookie.leave (left pointer)) := by
  rw [CookieJar.cookie, CookieJar.cookie, leave, List.getElem?_mapIdx]
  cases this.objects[pointer]? with
  | none => rfl
  | some o => rfl

/-- A block of the jar is given another content. -/
def put (this : CookieJar) (pointer : Nat) (o : Option Cookie) : CookieJar :=
  { this with objects := this.objects.set pointer o }

theorem leave_put (pointer : Nat) (o : Option Cookie) :
    (this.put pointer o).leave left =
      (this.leave left).put pointer (o.map (Cookie.leave (left pointer))) := by
  rw [leave, put, put, leave]
  congr 1
  apply List.ext_getElem?
  intro i
  simp only [List.getElem?_mapIdx, List.getElem?_set, List.length_mapIdx]
  by_cases hi : pointer = i
  · subst hi
    by_cases hlt : pointer < this.objects.length
    · simp [hlt]
    · simp [hlt]
  · simp [hi]

theorem put_cookie (pointer q : Nat) (o : Option Cookie) :
    (this.put pointer o).cookie q = this.cookie q ∨
      q = pointer ∧ (this.put pointer o).cookie q = o := by
  rw [CookieJar.cookie, put, List.getElem?_set]
  by_cases hq : pointer = q
  · subst hq
    by_cases hlt : pointer < this.objects.length
    · simp [hlt]
    · left
      simp [hlt, CookieJar.cookie]
  · left
    simp [hq, CookieJar.cookie]

theorem Unset.put (hunset : this.Unset left) {pointer : Nat}
    {o : Option Cookie}
    (ho : ∀ cookie, o = some cookie → left pointer = true →
      cookie.value = .null) : (this.put pointer o).Unset left := by
  intro q cookie hcookie hleft
  rcases put_cookie pointer q o with heq | ⟨rfl, heq⟩
  · exact hunset q cookie (heq ▸ hcookie) hleft
  · exact ho cookie (heq ▸ hcookie) hleft

/-- Jars of which one is the other in blocks that held something. -/
def Left (left : Nat → Bool) (this fresh : CookieJar) : Prop :=
  this = fresh.leave left ∧ fresh.Unset left

/-- A cookie whose value was written is the same in both jars. -/
theorem Left.of_written {fresh : CookieJar} (h : Left left this fresh)
    {pointer : Nat} {cookie : Cookie}
    (hcookie : fresh.cookie pointer = some cookie)
    (hwritten : this.Written pointer) : left pointer = false := by
  by_contra hleft
  rw [Bool.not_eq_false] at hleft
  refine hwritten (cookie.leave (left pointer)) ?_ ?_
  · rw [h.1, leave_cookie, hcookie]
    rfl
  · rw [hleft]
    rfl

theorem Left.ofOption {fresh : CookieJar} (h : Left left this fresh)
    (pointer : Nat) :
    Agree (fun a b => a = b.leave (left pointer) ∧
        this.cookie pointer = some a ∧ fresh.cookie pointer = some b)
      (Proc.ofOption (this.cookie pointer))
      (Proc.ofOption (fresh.cookie pointer)) := by
  rw [h.1, leave_cookie]
  cases fresh.cookie pointer with
  | none => exact Agree.undefined
  | some cookie => exact Agree.pure ⟨rfl, rfl, rfl⟩

theorem Left.allocate {fresh : CookieJar} (h : Left left this fresh)
    (name : Bytes) :
    (this.allocate left name).1 =
        (fresh.allocate (fun _ => false) name).1 ∧
      Left left (this.allocate left name).2
        (fresh.allocate (fun _ => false) name).2 := by
  obtain ⟨rfl, hunset⟩ := h
  refine ⟨leave_length, ?_, ?_⟩
  · rw [allocate, allocate, newCadCgiCookie_leave, leave_length]
    simp only [leave, List.mapIdx_append, List.mapIdx_cons, List.mapIdx_nil,
      Nat.zero_add, Option.map_some]
  · intro pointer cookie hcookie hleft
    rw [cookie_allocate] at hcookie
    split at hcookie
    next =>
      cases hcookie
      rfl
    next => exact hunset pointer cookie hcookie hleft

theorem Left.store {fresh : CookieJar} (h : Left left this fresh)
    {pointer : Nat} {cookie : Cookie}
    (hcookie : left pointer = true → cookie.value = .null) :
    Left left (this.store pointer (cookie.leave (left pointer)))
      (fresh.store pointer cookie) := by
  obtain ⟨rfl, hunset⟩ := h
  refine ⟨(leave_put pointer (some cookie)).symm, hunset.put ?_⟩
  rintro _ hsome hleft
  cases hsome
  exact hcookie hleft

/-- A cookie that is freed was written in one jar and in the other. -/
theorem Left.freeCookie {fresh : CookieJar} (h : Left left this fresh)
    {pointer : Nat} (hwritten : this.Written pointer) :
    Agree (Left left) (this.freeCookie pointer) (fresh.freeCookie pointer) := by
  have hput : Left left (this.put pointer none) (fresh.put pointer none) := by
    refine ⟨?_, h.2.put nofun⟩
    rw [h.1, leave_put]
    rfl
  refine (h.ofOption pointer).bind fun cookie cookie' hcookie => ?_
  obtain ⟨rfl, -, hcookie⟩ := hcookie
  rw [h.of_written hcookie hwritten, Cookie.leave_false]
  exact (Agree.refl _).bind fun _ _ _ => Agree.pure hput

theorem freeCookie_written {that : CookieJar} {pointer : Nat}
    (h : Returns (this.freeCookie pointer) that) : this.Written pointer := by
  obtain ⟨cookie, hcookie, h⟩ := returns_bind.mp h
  obtain ⟨_, hfree, -⟩ := returns_bind.mp h
  intro other hother hwild
  cases (returns_ofOption.mp hcookie).symm.trans hother
  rw [hwild] at hfree
  exact not_returns_undefined hfree

theorem freeCookie_cookie {that : CookieJar} {pointer q : Nat}
    (h : Returns (this.freeCookie pointer) that) (hq : q ≠ pointer) :
    that.cookie q = this.cookie q := by
  obtain ⟨_, -, h⟩ := returns_bind.mp h
  obtain ⟨_, -, h⟩ := returns_bind.mp h
  cases returns_pure.mp h
  exact (put_cookie pointer q none).resolve_right fun heq => hq heq.1

/-- A cookie that was written stays so, or is freed. -/
theorem freeCookie_keeps {that : CookieJar} {pointer q : Nat}
    (h : Returns (this.freeCookie pointer) that) (hwritten : this.Written q) :
    that.Written q := by
  obtain ⟨_, -, h⟩ := returns_bind.mp h
  obtain ⟨_, -, h⟩ := returns_bind.mp h
  cases returns_pure.mp h
  intro cookie hcookie
  rcases put_cookie pointer q none with heq | ⟨-, heq⟩
  · exact hwritten cookie (heq ▸ hcookie)
  · exact absurd (heq.symm.trans hcookie) nofun

theorem Left.free {fresh : CookieJar} (h : Left left this fresh)
    {pointer : Nat} (hwritten : this.Written pointer) :
    Agree (fun a b => a.1 = b.1 ∧ Left left a.2 b.2) (this.free pointer)
      (fresh.free pointer) := by
  refine (h.ofOption pointer).bind fun cookie cookie' hcookie => ?_
  obtain ⟨rfl, -, hcookie⟩ := hcookie
  rw [h.of_written hcookie hwritten, Cookie.leave_false]
  refine (Agree.refl _).bind fun freed freed' hfreed => ?_
  refine (h.freeCookie hwritten).bind fun that that' hthat => ?_
  exact Agree.pure ⟨hfreed, hthat⟩

theorem freeCookie_of_free {pointer : Nat}
    {a : List (Option Bytes) × CookieJar} (h : Returns (this.free pointer) a) :
    Returns (this.freeCookie pointer) a.2 := by
  obtain ⟨cookie, -, h⟩ := returns_bind.mp h
  obtain ⟨freed, -, h⟩ := returns_bind.mp h
  obtain ⟨that, hfree, h⟩ := returns_bind.mp h
  exact returns_pure.mp h ▸ hfree

theorem Left.set {fresh : CookieJar} (h : Left left this fresh) {pointer : Nat}
    (hwritten : ∀ cookie old, this.cookie pointer = some cookie →
      this.get cookie.name = some old → this.Written old) :
    Agree (fun a b => a.1 = b.1 ∧ Left left a.2 b.2) (this.set pointer)
      (fresh.set pointer) := by
  refine (h.ofOption pointer).bind fun cookie cookie' hcookie => ?_
  obtain ⟨rfl, hcookie, -⟩ := hcookie
  have hold := fun old => hwritten _ old hcookie
  rw [Cookie.leave_name] at hold ⊢
  have hget : this.get cookie'.name = fresh.get cookie'.name := by
    rw [h.1]
    rfl
  have hjar : Left left { this with
        jar := Dict.set stringsEqual cookie'.name cookie'.name pointer
          this.jar }
      { fresh with
        jar := Dict.set stringsEqual cookie'.name cookie'.name pointer
          fresh.jar } := by
    refine ⟨?_, h.2⟩
    rw [h.1]
    rfl
  dsimp only
  rw [← hget]
  cases hgot : this.get cookie'.name with
  | none => exact Agree.pure ⟨rfl, hjar⟩
  | some old =>
      refine Agree.bind (hjar.freeCookie (hold old hgot)) ?_
      exact fun that that' hthat => Agree.pure ⟨rfl, hthat⟩

theorem set_written {pointer : Nat} {a : Int × CookieJar}
    (h : Returns (this.set pointer) a) {cookie : Cookie} {old : Nat}
    (hcookie : this.cookie pointer = some cookie)
    (hold : this.get cookie.name = some old) : this.Written old := by
  obtain ⟨cookie', hcookie', h⟩ := returns_bind.mp h
  cases (returns_ofOption.mp hcookie').symm.trans hcookie
  dsimp only at h
  rw [hold] at h
  obtain ⟨that, hfree, -⟩ := returns_bind.mp h
  exact fun other hother => freeCookie_written hfree other hother

theorem flushCookie_leave {left : Bool} {cookie : Cookie}
    (hchanged : cookie.changed = true → left = false) :
    Agree (fun a b => a.1 = b.1 ∧ a.2 = b.2.leave left ∧
        b.2.value = cookie.value ∧ b.2.changed = false)
      (flushCookie (cookie.leave left)) (flushCookie cookie) := by
  rw [flushCookie, flushCookie, Cookie.leave_changed]
  by_cases hchange : cookie.changed = true
  · rw [if_pos hchange, if_pos hchange, hchanged hchange, Cookie.leave_false]
    refine (Agree.refl _).bind fun encoded encoded' hencoded => ?_
    refine (Agree.refl _).bind fun expires expires' hexpires => ?_
    rw [show encoded = encoded' from hencoded,
      show expires = expires' from hexpires]
    exact Agree.pure ⟨rfl, rfl, rfl, rfl⟩
  · rw [if_neg hchange, if_neg hchange]
    refine Agree.pure ⟨rfl, ?_, rfl, rfl⟩
    cases left <;> rfl

/-- The changed ones of the visited cookies were written. -/
def ChangedWritten (this : CookieJar) (visits : Dict Bytes Nat) : Prop :=
  ∀ visit ∈ visits, ∀ cookie, this.cookie visit.2 = some cookie →
    cookie.changed = true → this.Written visit.2

theorem Left.flushVisits {visits : Dict Bytes Nat} :
    ∀ {this fresh : CookieJar}, Left left this fresh →
      this.ChangedWritten visits →
      Agree (fun a b => a.1 = b.1 ∧ Left left a.2 b.2)
        (Libcad.flushVisits visits this) (Libcad.flushVisits visits fresh) := by
  induction visits with
  | nil => exact fun h _ => Agree.pure ⟨rfl, h⟩
  | cons visit rest ih =>
      intro this fresh h hchanged
      refine (h.ofOption visit.2).bind fun cookie cookie' hcookie => ?_
      obtain ⟨rfl, hthis, hfresh⟩ := hcookie
      have hleft : cookie'.changed = true → left visit.2 = false := by
        intro hchange
        refine h.of_written hfresh (hchanged visit List.mem_cons_self _ hthis ?_)
        rw [Cookie.leave_changed]
        exact hchange
      refine (flushCookie_leave hleft).bind ?_
      rintro ⟨line, after⟩ ⟨line', after'⟩ ⟨hline, rfl, hvalue, hafter⟩
      have hstore : Left left
          (this.store visit.2 (after'.leave (left visit.2)))
          (fresh.store visit.2 after') :=
        h.store fun hlefty => hvalue.trans (h.2 _ _ hfresh hlefty)
      have hrest : CookieJar.ChangedWritten
          (this.store visit.2 (after'.leave (left visit.2))) rest := by
        intro other hother cookie hcookie hchange
        have hlt := cookie_lt hthis
        rw [cookie_store this hlt] at hcookie
        split at hcookie
        next =>
          cases hcookie
          rw [Cookie.leave_changed, hafter] at hchange
          cases hchange
        next hne =>
          have hwritten := hchanged other (List.mem_cons_of_mem _ hother) cookie
            hcookie hchange
          intro cookie' hcookie'
          rw [cookie_store this hlt, if_neg hne] at hcookie'
          exact hwritten cookie' hcookie'
      refine (ih hstore hrest).bind ?_
      rintro ⟨lines, last⟩ ⟨lines', last'⟩ ⟨hlines, hlast⟩
      refine Agree.pure ⟨?_, hlast⟩
      rw [show line = line' from hline, show lines = lines' from hlines]

/-- A jar that was flushed had its changed cookies written. -/
theorem flushVisits_written {visits : Dict Bytes Nat} :
    ∀ {this : CookieJar} {a : Bytes × CookieJar},
      Returns (Libcad.flushVisits visits this) a →
      this.ChangedWritten visits := by
  induction visits with
  | nil => exact fun _ => nofun
  | cons visit rest ih =>
      intro this a h
      obtain ⟨cookie, hcookie, h⟩ := returns_bind.mp h
      have hlive := returns_ofOption.mp hcookie
      obtain ⟨⟨line, after⟩, hflush, h⟩ := returns_bind.mp h
      obtain ⟨⟨lines, last⟩, hrest, -⟩ := returns_bind.mp h
      have hhead : cookie.changed = true → this.Written visit.2 := by
        intro hchange other hother hwild
        cases hlive.symm.trans hother
        rw [flushCookie, if_pos hchange, hwild] at hflush
        obtain ⟨_, hencode, -⟩ := returns_bind.mp hflush
        exact not_returns_undefined hencode
      intro other hother cookie' hcookie' hchange
      by_cases heq : other.2 = visit.2
      · rw [heq] at hcookie' ⊢
        cases hlive.symm.trans hcookie'
        exact hhead hchange
      · rcases List.mem_cons.mp hother with rfl | hother
        · exact absurd rfl heq
        · have hsame : ∀ c, this.cookie other.2 = some c →
              (this.store visit.2 after).cookie other.2 = some c := by
            intro c hc
            rw [cookie_store this (cookie_lt hlive), if_neg heq, hc]
          intro c hc
          exact ih hrest other hother _ (hsame _ hcookie') hchange c
            (hsame c hc)

theorem Left.freeVisits {visits : Dict Bytes Nat} :
    ∀ {this fresh : CookieJar}, Left left this fresh →
      (∀ visit ∈ visits, this.Written visit.2) →
      Agree Eq (CookieJar.freeVisits visits this)
        (CookieJar.freeVisits visits fresh) := by
  induction visits with
  | nil => exact fun _ _ => Agree.pure rfl
  | cons visit rest ih =>
      intro this fresh h hwritten
      obtain ⟨hhead, htail⟩ := List.forall_mem_cons.mp hwritten
      refine (h.free hhead).with_returns.bind ?_
      rintro ⟨freed, that⟩ ⟨freed', that'⟩ ⟨⟨hfreed, hthat⟩, hfree, -⟩
      have hrest : ∀ other ∈ rest, that.Written other.2 :=
        fun other hother => freeCookie_keeps (freeCookie_of_free hfree)
          (htail other hother)
      refine (ih hthat hrest).bind fun more more' hmore => ?_
      exact Agree.pure (by rw [show freed = freed' from hfreed, hmore])

theorem freeVisits_written {visits : Dict Bytes Nat} :
    ∀ {this : CookieJar} {a : List (Option Bytes)},
      Returns (CookieJar.freeVisits visits this) a →
      ∀ visit ∈ visits, this.Written visit.2 := by
  induction visits with
  | nil => exact fun _ => nofun
  | cons visit rest ih =>
      intro this a h
      obtain ⟨⟨freed, that⟩, hfree, h⟩ := returns_bind.mp h
      obtain ⟨more, hrest, -⟩ := returns_bind.mp h
      have hjar := freeCookie_of_free hfree
      have hhead := freeCookie_written hjar
      intro other hother
      by_cases heq : other.2 = visit.2
      · exact heq ▸ hhead
      · rcases List.mem_cons.mp hother with rfl | hother
        · exact hhead
        · intro c hc
          refine ih hrest other hother c ?_
          rw [freeCookie_cookie hjar heq]
          exact hc

/-- A value is stored in a new cookie only if its block held nothing. -/
theorem add_written {name value : Bytes} {that : CookieJar}
    (h : Returns (this.add left name (some value)) that) :
    left this.objects.length = false := by
  by_contra hleft
  rw [Bool.not_eq_false] at hleft
  obtain ⟨r, hset, -⟩ := returns_bind.mp h
  obtain ⟨_, hfree, -⟩ := returns_bind.mp hset
  rw [newCadCgiCookie_leave, hleft] at hfree
  exact not_returns_undefined hfree

theorem Left.add {fresh : CookieJar} (h : Left left this fresh)
    {name : Bytes} {value : Option Bytes}
    (hvalue : value ≠ none → left this.objects.length = false) :
    Agree (Left left) (this.add left name value)
      (fresh.add (fun _ => false) name value) := by
  have hlength : this.objects.length = fresh.objects.length := by
    rw [h.1, leave_length]
  have hallocate := (h.allocate name).2
  rw [CookieJar.add, CookieJar.add]
  dsimp only [CookieJar.allocate] at hallocate ⊢
  rw [hlength] at hallocate hvalue ⊢
  rw [newCadCgiCookie_leave] at hallocate ⊢
  have hput : ∀ cookie : Cookie,
      (left fresh.objects.length = true → cookie.value = .null) →
      Left left
        { objects := (this.objects ++ [some ((newCadCgiCookie false name).leave
            (left fresh.objects.length))]).set fresh.objects.length
            (some (cookie.leave (left fresh.objects.length)))
          jar := Dict.set stringsEqual name name fresh.objects.length this.jar }
        { objects := (fresh.objects ++ [some (newCadCgiCookie false name)]).set
            fresh.objects.length (some cookie)
          jar := Dict.set stringsEqual name name fresh.objects.length
            fresh.jar } := by
    intro cookie hcookie
    have hstore := hallocate.store hcookie
    refine ⟨?_, hstore.2⟩
    have hjar : this.jar = fresh.jar := by rw [h.1, leave_jar]
    rw [hjar, leave]
    congr 1
    exact congrArg CookieJar.objects hstore.1
  cases value with
  | none =>
      refine Agree.pure ?_
      have hunchanged : ∀ b : Bool,
          { (newCadCgiCookie false name).leave b with changed := false } =
            Cookie.leave b (newCadCgiCookie false name) := by
        intro b
        cases b <;> rfl
      have hnew := hput (newCadCgiCookie false name) fun _ => rfl
      simp only [CookieJar.store, hunchanged]
      exact hnew
  | some value =>
      rw [hvalue (Option.some_ne_none value)] at hput ⊢
      simp only [Cookie.leave_false] at hput ⊢
      refine Agree.bind (Agree.refl _) fun cookie cookie' hcookie => ?_
      rw [show cookie = cookie' from hcookie]
      exact Agree.pure
        (hput _ fun htrue => absurd htrue Bool.false_ne_true)

end CookieJar

end Libcad
