/-
Responses and cookies that are new: their runs depend on what their blocks held
before exactly when they read it.
-/
import Libcad.CgiLeftovers

namespace Libcad

open Proc

variable {left : Nat → Bool}

/-- Scans of which one stores its cookies in blocks that held something. -/
def CookieScan.Left (left : Nat → Bool) (st fresh : CookieScan) : Prop :=
  ∃ jar, CookieJar.Left left jar fresh.jar ∧ st = { fresh with jar := jar }

theorem addNone_left {jar : CookieJar} {fresh : CookieScan}
    (h : CookieJar.Left left jar fresh.jar) (name : Bytes) (after : Nat) :
    Agree (CookieScan.Left left)
      (do
        let jar ← CookieJar.add left jar name none
        pure { fresh with jar := jar, state := after })
      (do
        let jar ← CookieJar.add (fun _ => false) fresh.jar name none
        pure { fresh with jar := jar, state := after }) := by
  refine (h.add (absurd rfl)).bind fun that that' hthat => ?_
  exact Agree.pure ⟨that, hthat, rfl⟩

/-- Where the cookie of a value was added, its block held nothing, or it must
have been so. -/
theorem left_of_added {jar : CookieJar} {fresh : CookieJar}
    (h : CookieJar.Left left jar fresh) {name value : Bytes}
    (hadd : (∃ that, Returns (jar.add left name (some value)) that) ∨
      ∃ that, Returns (fresh.add (fun _ => false) name (some value)) that ∧
        that.Unset left) :
    left jar.objects.length = false := by
  rcases hadd with ⟨that, hthat⟩ | ⟨that, hthat, hunset⟩
  · exact CookieJar.add_written hthat
  · by_contra hleft
    rw [Bool.not_eq_false] at hleft
    have hlength : jar.objects.length = fresh.objects.length := by
      rw [h.1, CookieJar.leave_length]
    rw [hlength] at hleft
    obtain ⟨r, hset, hthat⟩ := returns_bind.mp hthat
    obtain ⟨_, -, hset⟩ := returns_bind.mp hset
    cases returns_pure.mp hset
    cases returns_pure.mp hthat
    have hvalue := hunset fresh.objects.length
      { newCadCgiCookie false name with value := .string (cString value) }
      (by simp [CookieJar.cookie, CookieJar.store,
        newCadCgiCookie]) hleft
    cases hvalue

theorem betweenCookies_left {jar : CookieJar} {fresh : CookieScan}
    (h : CookieJar.Left left jar fresh.jar) :
    Agree (CookieScan.Left left)
      (if fresh.char = ascii ' ' then pure { fresh with jar := jar }
        else pure { fresh with
          name := fresh.httpCookie, value := none,
          state := if fresh.char = 0 then 0 else 1, jar := jar })
      (if fresh.char = ascii ' ' then pure fresh
        else pure { fresh with
          name := fresh.httpCookie, value := none,
          state := if fresh.char = 0 then 0 else 1 }) := by
  by_cases hblank : fresh.char = ascii ' '
  · rw [if_pos hblank, if_pos hblank]
    exact Agree.pure ⟨jar, h, rfl⟩
  · rw [if_neg hblank, if_neg hblank]
    exact Agree.pure ⟨jar, h, rfl⟩

theorem cookieChar_left {st fresh : CookieScan} (h : st.Left left fresh)
    (hgood : (∃ next, Returns (cookieChar left st) next) ∨
      ∃ next, Returns (cookieChar (fun _ => false) fresh) next ∧
        next.jar.Unset left) :
    Agree (CookieScan.Left left) (cookieChar left st)
      (cookieChar (fun _ => false) fresh) := by
  obtain ⟨jar, hjar, rfl⟩ := h
  obtain ⟨state, httpCookie, name, value, freshJar⟩ := fresh
  have hchar : ∀ state, CookieScan.char ⟨state, httpCookie, name, value, jar⟩ =
      CookieScan.char ⟨state, httpCookie, name, value, freshJar⟩ :=
    fun _ => rfl
  dsimp only at hgood ⊢
  rcases state with _ | _ | _ | n
  · exact betweenCookies_left hjar
  · simp only [cookieChar, hchar]
    split
    next => exact Agree.pure ⟨jar, hjar, rfl⟩
    next =>
      split
      next => exact addNone_left hjar _ _
      next => exact Agree.pure ⟨jar, hjar, rfl⟩
  · simp only [cookieChar, hchar] at hgood ⊢
    split
    next hend =>
      simp only [if_pos hend] at hgood
      cases value with
      | none => exact Agree.undefined
      | some value =>
          refine (Agree.refl _).with_returns.bind fun v v' hv => ?_
          obtain ⟨rfl, hv, -⟩ := hv
          have hadd : (∃ that, Returns (jar.add left
                (parseCookieName name (ascii '=' :: value)) (some v)) that) ∨
              ∃ that, Returns (freshJar.add (fun _ => false)
                (parseCookieName name (ascii '=' :: value)) (some v)) that ∧
                that.Unset left := by
            refine hgood.imp ?_ ?_
            · rintro ⟨next, hnext⟩
              obtain ⟨v', hv', hnext⟩ := returns_bind.mp hnext
              cases hv.unique hv'
              obtain ⟨that, hthat, -⟩ := returns_bind.mp hnext
              exact ⟨that, hthat⟩
            · rintro ⟨next, hnext, hunset⟩
              obtain ⟨v', hv', hnext⟩ := returns_bind.mp hnext
              cases hv.unique hv'
              obtain ⟨that, hthat, hnext⟩ := returns_bind.mp hnext
              cases returns_pure.mp hnext
              exact ⟨that, hthat, hunset⟩
          have hleft := left_of_added hjar hadd
          refine (hjar.add fun _ => hleft).bind fun that that' hthat => ?_
          exact Agree.pure ⟨that, hthat, rfl⟩
    next => exact Agree.pure ⟨jar, hjar, rfl⟩
  · exact betweenCookies_left hjar

/-- A jar that has all the cookies of another one. -/
def CookieJar.Extends (this that : CookieJar) : Prop :=
  ∀ pointer cookie, this.cookie pointer = some cookie →
    that.cookie pointer = some cookie

theorem CookieJar.Extends.unset {this that : CookieJar}
    (h : this.Extends that) (hunset : that.Unset left) : this.Unset left :=
  fun pointer cookie hcookie => hunset pointer cookie (h pointer cookie hcookie)

theorem CookieJar.add_extends {stale : Nat → Bool} {this that : CookieJar}
    {name : Bytes} {value : Option Bytes}
    (h : Returns (this.add stale name value) that) : this.Extends that := by
  obtain ⟨new, -, -, rfl⟩ := add_returns h
  intro pointer cookie hcookie
  rw [cookie_withNew, if_neg (Nat.ne_of_lt (CookieJar.cookie_lt hcookie))]
  exact hcookie

theorem parse_extends {stale : Nat → Bool} {st : CookieScan}
    {jar : CookieJar} (h : Returns (loop (cookieStep stale) st) jar) :
    st.jar.Extends jar := by
  refine parse_invariant ?_ (fun _ _ hcookie => hcookie) h
  intro this that name value hthis hadd pointer cookie hcookie
  exact CookieJar.add_extends hadd pointer cookie
    (hthis pointer cookie hcookie)

theorem cookieStep_left {st fresh : CookieScan} (h : st.Left left fresh)
    (hgood : (∃ o, Returns (cookieStep left st) o) ∨
      ∃ next, Returns (cookieStep (fun _ => false) fresh) (.inl next) ∧
        next.jar.Unset left) :
    Agree (SumRel (CookieScan.Left left) (CookieJar.Left left))
      (cookieStep left st) (cookieStep (fun _ => false) fresh) := by
  obtain ⟨jar, hjar, heq⟩ := h
  have hstate : st.state = fresh.state := by rw [heq]
  rw [cookieStep, cookieStep, hstate] at hgood ⊢
  by_cases hzero : fresh.state = 0
  · rw [if_pos hzero, if_pos hzero]
    refine Agree.pure (.inr ?_)
    rw [heq]
    exact hjar
  · rw [if_neg hzero, if_neg hzero] at hgood ⊢
    refine (cookieChar_left ⟨jar, hjar, heq⟩ (hgood.imp ?_ ?_)).bind ?_
    · rintro ⟨o, ho⟩
      obtain ⟨next, hnext, -⟩ := returns_bind.mp ho
      exact ⟨next, hnext⟩
    · rintro ⟨next, hnext, hunset⟩
      obtain ⟨st', hchar, hnext⟩ := returns_bind.mp hnext
      refine ⟨st', hchar, ?_⟩
      split at hnext
      next => cases returns_pure.mp hnext; exact hunset
      next => cases returns_pure.mp hnext; exact hunset
    · rintro _ next ⟨that, hthat, rfl⟩
      by_cases hend : next.state = 0
      · rw [if_pos hend, if_pos hend]
        exact Agree.pure (.inl ⟨that, hthat, rfl⟩)
      · rw [if_neg hend, if_neg hend]
        exact Agree.pure (.inl ⟨that, hthat, rfl⟩)

/-- A jar parsed in any blocks is one parsed in blocks of zeros. -/
theorem parse_left {st fresh : CookieScan} {jar : CookieJar}
    (hst : st.Left left fresh) (h : Returns (loop (cookieStep left) st) jar) :
    ∃ jar', Returns (loop (cookieStep fun _ => false) fresh) jar' ∧
      CookieJar.Left left jar jar' := by
  refine Returns.loop_induction
    (P := fun st jar => ∀ fresh, st.Left left fresh →
      ∃ jar', Returns (loop (cookieStep fun _ => false) fresh) jar' ∧
        CookieJar.Left left jar jar') ?_ ?_ h fresh hst
  · intro st jar hexit fresh hst
    obtain ⟨o, ho, hrel⟩ :=
      (cookieStep_left hst (Or.inl ⟨_, hexit⟩)).forth _ hexit
    cases hrel with
    | inr hjar => exact ⟨_, ho.loop_exit, hjar⟩
  · intro st next jar hnext _ ih fresh hst
    obtain ⟨o, ho, hrel⟩ :=
      (cookieStep_left hst (Or.inl ⟨_, hnext⟩)).forth _ hnext
    cases hrel with
    | inl hst' =>
        obtain ⟨jar', hjar', hleft⟩ := ih _ hst'
        exact ⟨jar', ho.loop_next.mpr hjar', hleft⟩

/-- A jar parsed in blocks of zeros can be parsed in other blocks if the values
it was given are not stored there. -/
theorem parse_unset {st fresh : CookieScan} {jar' : CookieJar}
    (hst : st.Left left fresh)
    (h : Returns (loop (cookieStep fun _ => false) fresh) jar')
    (hunset : jar'.Unset left) :
    ∃ jar, Returns (loop (cookieStep left) st) jar ∧
      CookieJar.Left left jar jar' := by
  refine Returns.loop_induction
    (P := fun fresh jar' => jar'.Unset left → ∀ st : CookieScan,
      st.Left left fresh → ∃ jar, Returns (loop (cookieStep left) st) jar ∧
        CookieJar.Left left jar jar') ?_ ?_ h hunset st hst
  · intro fresh jar' hexit _ st hst
    obtain ⟨that, hthat, rfl⟩ := hst
    rw [cookieStep] at hexit
    split at hexit
    next hzero =>
      cases returns_pure.mp hexit
      refine ⟨that, Returns.loop_exit ?_, hthat⟩
      rw [cookieStep, if_pos hzero]
      exact returns_pure_self _
    next =>
      obtain ⟨st', -, hexit⟩ := returns_bind.mp hexit
      split at hexit <;> cases returns_pure.mp hexit
  · intro fresh next jar' hnext hloop ih hunset st hst
    have hsofar := (parse_extends hloop).unset hunset
    obtain ⟨o, ho, hrel⟩ :=
      (cookieStep_left hst (Or.inr ⟨next, hnext, hsofar⟩)).back _ hnext
    cases hrel with
    | inl hst' =>
        obtain ⟨jar, hjar, hleft⟩ := ih hunset _ hst'
        exact ⟨jar, ho.loop_next.mpr hjar, hleft⟩

section

variable {τ : Type} {arith : IntArith} {fns : StreamFns τ}

/-- The calls that read a member `new_meta` does not set. -/
def MetaCall.ReadsLeft : MetaCall → Prop
  | .string .serverName | .inputAsForm => True
  | _ => False

/-- Meta variables that are alike but for what a block held in the members that
were not set. -/
def MetaState.Left (st fresh : MetaState τ) : Prop :=
  ∀ call, st.Agree call fresh ∨ MetaCall.ReadsLeft call ∧ st.Wild call

theorem MetaState.Agree.wild {call : MetaCall} {st st' : MetaState τ}
    (h : st.Agree call st') (hwild : st.Wild call) : st'.Wild call := by
  cases call with
  | string field => exact h.1.symm.trans hwild
  | inputAsForm => exact h.1.symm.trans hwild
  | _ => exact hwild

/-- A call that returns did not read what a block held. -/
theorem MetaState.call_written {call : MetaCall} {st : MetaState τ}
    {a : MetaReport × MetaState τ} (h : Returns (st.call arith fns call) a) :
    ¬ st.Wild call := by
  intro hwild
  cases call with
  | string field =>
      obtain ⟨_, hstring, -⟩ := returns_bind.mp h
      rw [stringAccessor, show st.this.strings field = _ from hwild] at hstring
      exact not_returns_undefined hstring
  | inputAsForm =>
      obtain ⟨_, hform, -⟩ := returns_bind.mp h
      obtain ⟨_, hparse, -⟩ := returns_bind.mp hform
      rw [show st.this.inputAsForm = _ from hwild] at hparse
      exact not_returns_undefined hparse
  | _ => exact hwild

theorem MetaState.Left.next {call : MetaCall} {st fresh t t' : MetaState τ}
    {report report' : MetaReport} (h : st.Left fresh)
    (hst : Returns (st.call arith fns call) (report, t))
    (hfresh : Returns (fresh.call arith fns call) (report', t'))
    (hagree : t.Agree call t') : t.Left t' := by
  intro other
  by_cases heq : other = call
  · exact Or.inl (heq ▸ hagree)
  · have hkept := MetaState.call_frame heq hst
    refine (h other).imp (fun hother => ?_) (And.imp_right fun hwild => ?_)
    · exact (hkept.trans hother).trans (MetaState.call_frame heq hfresh).symm
    · exact hkept.symm.wild hwild

/-- A call that reads nothing a block held answers alike. -/
theorem MetaState.Left.call {call : MetaCall} {st fresh : MetaState τ}
    (h : st.Left fresh) (hwild : ¬ st.Wild call) :
    Proc.Agree (fun a b => a.1 = b.1 ∧ a.2.Left b.2) (st.call arith fns call)
      (fresh.call arith fns call) := by
  have hagree := (h call).resolve_right fun hleft => hwild hleft.2
  constructor
  · rintro ⟨report, t⟩ ht
    obtain ⟨t', ht', hagree'⟩ := MetaState.call_local hagree ht
    exact ⟨_, ht', rfl, h.next ht ht' hagree'⟩
  · rintro ⟨report, t'⟩ ht'
    obtain ⟨t, ht, hagree'⟩ := MetaState.call_local hagree.symm ht'
    exact ⟨_, ht, rfl, h.next ht ht' hagree'.symm⟩

theorem freeStrings_congr {strings strings' : StringField → CharPtr}
    {fields : List StringField}
    (h : ∀ field ∈ fields, strings field = strings' field) :
    freeStrings strings fields = freeStrings strings' fields := by
  induction fields with
  | nil => rfl
  | cons field fields ih =>
      obtain ⟨hfield, hfields⟩ := List.forall_mem_cons.mp h
      rw [freeStrings, freeStrings, hfield, ih hfields]

/-- `free_meta` reads `input_as_form`, and not `server_name`. -/
theorem MetaState.Left.freeMeta {order : VisitOrder} {st fresh : MetaState τ}
    (h : st.Left fresh) (hwild : ¬ st.Wild .inputAsForm) :
    Libcad.freeMeta order st.this = Libcad.freeMeta order fresh.this := by
  have hset : ∀ call, ¬ MetaCall.ReadsLeft call → st.Agree call fresh :=
    fun call hcall => (h call).resolve_right fun hleft => hcall hleft.1
  have hform := (h .inputAsForm).resolve_right fun hleft => hwild hleft.2
  have hstrings : ∀ field, field ≠ .serverName →
      st.this.strings field = fresh.this.strings field := by
    intro field hfield
    refine (hset (.string field) ?_).1
    cases field <;> first | exact absurd rfl hfield | exact id
  rw [Libcad.freeMeta, Libcad.freeMeta, hform.1, (hset .queryString id).1,
    (hset .contentType id).1, (hset .serverProtocol id).1,
    freeStrings_congr fun field hfield => hstrings field ?_,
    freeStrings_congr fun field hfield => hstrings field ?_]
  · rintro rfl
    exact absurd hfield (by decide)
  · rintro rfl
    exact absurd hfield (by decide)

theorem freeMeta_written {order : VisitOrder} {st : MetaState τ}
    {a : List (Option Bytes)} (h : Returns (freeMeta order st.this) a) :
    ¬ st.Wild .inputAsForm := by
  intro hwild
  obtain ⟨_, hform, -⟩ := returns_bind.mp h
  rw [show st.this.inputAsForm = _ from hwild] at hform
  exact not_returns_undefined hform

theorem newMeta_left {block block' : MetaImpl τ} {env : Env}
    {input : Option (InputStream τ)}
    (hform : block.inputAsForm = .wild ∨
      block.inputAsForm = block'.inputAsForm)
    (hname : block.strings .serverName = .wild ∨
      block.strings .serverName = block'.strings .serverName) :
    MetaState.Left ⟨newMeta block env input, env⟩
      ⟨newMeta block' env input, env⟩ := by
  intro call
  cases call with
  | contentLength => exact Or.inl rfl
  | inputAsForm =>
      exact hform.symm.imp (fun heq => ⟨heq, rfl⟩) fun heq => ⟨trivial, heq⟩
  | string field =>
      cases field with
      | serverName =>
          exact hname.symm.imp (fun heq => ⟨heq, rfl⟩) fun heq => ⟨trivial, heq⟩
      | _ => exact Or.inl ⟨rfl, rfl⟩
  | _ => exact Or.inl ⟨rfl, rfl⟩

/-- Responses of which one, its cookies included, has been made in blocks that
held something. -/
def Handling.Left (left : Nat → Bool) (st fresh : Handling τ) : Prop :=
  ∃ cookies metaState, CookieJar.Left left cookies fresh.response.cookies ∧
    MetaState.Left metaState fresh.metaState ∧
    st = { fresh with
      response := { fresh.response with cookies := cookies }
      metaState := metaState }

/-- A function of the response that leaves its cookies alone. -/
def Cookieless (f : Response → Int × Response) : Prop :=
  ∀ this cookies, (f this).2.cookies = this.cookies ∧
    f { this with cookies := cookies } =
      ((f this).1, { (f this).2 with cookies := cookies })

theorem redirect_cookieless (pathAllocated fragmentAllocated : Bool)
    (path fragment : Option Bytes) :
    Cookieless fun this =>
      this.redirect pathAllocated fragmentAllocated path fragment := by
  intro this cookies
  obtain ⟨_, body, _, _, _, _, _⟩ := this
  cases body with
  | some body => exact ⟨rfl, rfl⟩
  | none =>
      cases path with
      | none => exact ⟨rfl, rfl⟩
      | some path =>
          cases fragment with
          | none => exact ⟨rfl, rfl⟩
          | some fragment =>
              cases pathAllocated <;> cases fragmentAllocated <;>
                exact ⟨rfl, rfl⟩

theorem setContentType_cookieless (allocated : Bool)
    (contentType : Option Bytes) :
    Cookieless fun this => this.setContentType allocated contentType := by
  intro this cookies
  cases contentType with
  | none => exact ⟨rfl, rfl⟩
  | some contentType => cases allocated <;> exact ⟨rfl, rfl⟩

theorem answer_left {f : Response → Int × Response} (hf : Cookieless f)
    {st fresh : Handling τ} (h : st.Left left fresh) :
    Agree (fun a b => a.1 = b.1 ∧ a.2.Left left b.2)
      (st.answer (f st.response)) (fresh.answer (f fresh.response)) := by
  obtain ⟨cookies, metaState, hcookies, hmeta, rfl⟩ := h
  obtain ⟨hsame, hwith⟩ := hf fresh.response cookies
  dsimp only
  rw [hwith]
  refine Agree.pure ⟨rfl, cookies, metaState, ?_, hmeta, rfl⟩
  dsimp only
  rw [hsame]
  exact hcookies

theorem setHeader_left {allocated : Bool} {field value : Option Bytes}
    {st fresh : Handling τ} (h : st.Left left fresh) :
    Agree (fun a b => a.1 = b.1 ∧ a.2.Left left b.2)
      (st.response.setHeader allocated field value >>= st.answer)
      (fresh.response.setHeader allocated field value >>= fresh.answer) := by
  obtain ⟨cookies, metaState, hcookies, hmeta, rfl⟩ := h
  have hanswer : ∀ (n : Int) (headers : StringHash),
      Agree (fun a b => a.1 = b.1 ∧ a.2.Left left b.2)
        (Handling.answer { fresh with
            response := { fresh.response with cookies := cookies }
            metaState := metaState }
          (n, { fresh.response with cookies := cookies, headers := headers }))
        (fresh.answer (n, { fresh.response with headers := headers })) :=
    fun n headers =>
      Agree.pure ⟨rfl, cookies, metaState, hcookies, hmeta, rfl⟩
  cases field with
  | none => exact hanswer (-1) _
  | some field =>
      cases value with
      | none => exact hanswer (-1) _
      | some value =>
          simp only [Response.setHeader]
          split
          next =>
            cases allocated with
            | false => exact hanswer (-1) _
            | true => exact hanswer 0 _
          next => exact hanswer (-1) _

theorem flush_left {order : VisitOrder} {st fresh : Handling τ}
    (h : st.Left left fresh)
    (hwritten : st.response.cookies.ChangedWritten
      (order.visits st.response.cookies.jar)) :
    Agree (fun a b => a.1 = b.1 ∧
        Handling.Left left { st with response := a.2 }
          { fresh with response := b.2 })
      (st.response.flush order) (fresh.response.flush order) := by
  obtain ⟨cookies, metaState, hcookies, hmeta, rfl⟩ := h
  have hjar : cookies.jar = fresh.response.cookies.jar := by
    rw [hcookies.1, CookieJar.leave_jar]
  refine (Agree.refl _).bind fun location location' hlocation => ?_
  have hflush := hcookies.flushVisits hwritten
  dsimp only [flushCookies]
  rw [hjar] at hflush ⊢
  refine hflush.bind ?_
  rintro ⟨lines, that⟩ ⟨lines', that'⟩ ⟨hlines, hthat⟩
  refine (Agree.refl _).bind fun body body' hbody => ?_
  rw [show location = location' from hlocation,
    show lines = lines' from hlines, show body = body' from hbody]
  exact Agree.pure ⟨rfl, that, metaState, hthat, hmeta, rfl⟩

/-- The response of both with another pair of jars. -/
theorem withCookies_left {st fresh : Handling τ} (h : st.Left left fresh)
    {cookies cookies' : CookieJar} (hcookies : cookies.Left left cookies') :
    (st.withCookies cookies).Left left (fresh.withCookies cookies') := by
  obtain ⟨_, metaState, -, hmeta, rfl⟩ := h
  exact ⟨cookies, metaState, hcookies, hmeta, rfl⟩

/-- A call that reads nothing the blocks held answers alike. -/
theorem call_left {order : VisitOrder} {st fresh : Handling τ}
    {c : ResponseCall} (h : st.Left left fresh) (hclean : st.Clean c) :
    Agree (fun a b => a.1 = b.1 ∧ a.2.Left left b.2)
      (st.call arith fns order left c)
      (fresh.call arith fns order (fun _ => false) c) := by
  have hcookies : st.response.cookies.Left left fresh.response.cookies := by
    obtain ⟨_, _, hcookies, -, rfl⟩ := h
    exact hcookies
  obtain ⟨hwritten, hwild⟩ := hclean
  cases c with
  | redirect pathAllocated fragmentAllocated path fragment =>
      exact answer_left (redirect_cookieless _ _ _ _) h
  | setStatus status =>
      exact answer_left (f := fun this => this.setStatus status)
        (fun _ _ => ⟨rfl, rfl⟩) h
  | setContentType allocated contentType =>
      exact answer_left (setContentType_cookieless _ _) h
  | setHeader allocated field value => exact setHeader_left h
  | putBody text =>
      exact answer_left (f := fun this => (0, this.putBody text))
        (fun _ _ => ⟨rfl, rfl⟩) h
  | fd =>
      refine Agree.pure ⟨?_, h⟩
      obtain ⟨_, _, -, -, rfl⟩ := h
      rfl
  | flush =>
      have hchanged : st.response.cookies.ChangedWritten
          (order.visits st.response.cookies.jar) := by
        intro visit hvisit cookie hcookie hchange
        have hmem := (order.perm _).mem_iff.mp hvisit
        exact hwritten visit.2 ⟨⟨visit.1, hmem⟩, cookie, hcookie, hchange⟩
      refine (flush_left h hchanged).bind ?_
      rintro ⟨text, response⟩ ⟨text', response'⟩ ⟨htext, hresponse⟩
      exact Agree.pure ⟨congrArg ResponseReport.output htext, hresponse⟩
  | metaVariables call =>
      obtain ⟨cookies, metaState, hjar, hmeta, rfl⟩ := h
      refine (hmeta.call (hwild call rfl)).bind ?_
      rintro ⟨report, next⟩ ⟨report', next'⟩ ⟨hreport, hnext⟩
      exact Agree.pure ⟨congrArg ResponseReport.metaVariables hreport, cookies,
        next, hjar, hnext, rfl⟩
  | getCookie name =>
      refine Agree.pure ⟨?_, h⟩
      rw [hcookies.1, CookieJar.leave_get]
  | setCookie pointer =>
      refine (hcookies.set fun cookie old hcookie hold =>
        hwritten old ⟨cookie, hcookie, hold⟩).bind ?_
      rintro ⟨result, cookies⟩ ⟨result', cookies'⟩ ⟨hresult, hjar⟩
      exact Agree.pure ⟨congrArg ResponseReport.number hresult,
        withCookies_left h hjar⟩
  | iterateCookies =>
      refine Agree.pure ⟨?_, h⟩
      rw [hcookies.1, CookieJar.leave_jar]
  | newCookie name =>
      obtain ⟨hpointer, hjar⟩ := hcookies.allocate name
      exact Agree.pure ⟨congrArg (ResponseReport.pointer ∘ some) hpointer,
        withCookies_left h hjar⟩
  | cookie pointer call =>
      refine (hcookies.ofOption pointer).bind fun cookie cookie' hcookie => ?_
      obtain ⟨rfl, -, hfresh⟩ := hcookie
      have hread : call.ReadsValue → left pointer = false :=
        fun hread => hcookies.of_written hfresh (hwritten pointer ⟨rfl, hread⟩)
      refine (Cookie.call_leave hread).bind ?_
      rintro ⟨report, next⟩ ⟨report', next'⟩ ⟨hreport, rfl, hvalue⟩
      refine Agree.pure ⟨congrArg ResponseReport.cookie hreport,
        withCookies_left h ?_⟩
      exact hcookies.store fun hleft =>
        (hvalue hleft).trans (hcookies.2 pointer cookie' hfresh hleft)
  | freeCookie pointer =>
      refine (hcookies.free (hwritten pointer rfl)).bind ?_
      rintro ⟨freed, cookies⟩ ⟨freed', cookies'⟩ ⟨hfreed, hjar⟩
      exact Agree.pure ⟨congrArg ResponseReport.freed hfreed,
        withCookies_left h hjar⟩

/-- A call that returns read nothing the blocks held. -/
theorem call_clean {order : VisitOrder} {stale : Nat → Bool} {st : Handling τ}
    {c : ResponseCall} {a : ResponseReport × Handling τ}
    (h : Returns (st.call arith fns order stale c) a) : st.Clean c := by
  constructor
  · intro pointer hread
    cases c with
    | flush =>
        obtain ⟨⟨name, hmem⟩, cookie, hcookie, hchange⟩ := hread
        obtain ⟨_, hflush, -⟩ := returns_bind.mp h
        obtain ⟨_, -, hflush⟩ := returns_bind.mp hflush
        obtain ⟨_, hlines, -⟩ := returns_bind.mp hflush
        exact CookieJar.flushVisits_written hlines (name, pointer)
          ((order.perm _).mem_iff.mpr hmem) cookie hcookie hchange
    | setCookie p =>
        obtain ⟨cookie, hcookie, hold⟩ := hread
        obtain ⟨_, hset, -⟩ := returns_bind.mp h
        exact CookieJar.set_written hset hcookie hold
    | cookie p call =>
        obtain ⟨rfl, hvalue⟩ := hread
        obtain ⟨cookie, hcookie, h⟩ := returns_bind.mp h
        obtain ⟨_, hcall, -⟩ := returns_bind.mp h
        intro other hother
        cases (returns_ofOption.mp hcookie).symm.trans hother
        exact Cookie.call_written hcall hvalue
    | freeCookie p =>
        obtain ⟨_, hfree, -⟩ := returns_bind.mp h
        rw [show pointer = p from hread]
        exact CookieJar.freeCookie_written (CookieJar.freeCookie_of_free hfree)
    | _ => exact absurd hread id
  · rintro call rfl
    obtain ⟨_, hcall, -⟩ := returns_bind.mp h
    exact MetaState.call_written hcall

theorem free_left {order : VisitOrder} {st fresh : Handling τ}
    (h : st.Left left fresh) (hclean : st.CleanFree) :
    Agree Eq (st.free order) (fresh.free order) := by
  obtain ⟨hwritten, hwild⟩ := hclean
  obtain ⟨cookies, metaState, hcookies, hmeta, rfl⟩ := h
  have hvisits : ∀ visit ∈ order.visits cookies.jar,
      cookies.Written visit.2 := fun visit hvisit =>
    hwritten visit ((order.perm _).mem_iff.mp hvisit)
  have hfree := hcookies.freeVisits hvisits
  have hjar : cookies.jar = fresh.response.cookies.jar := by
    rw [hcookies.1, CookieJar.leave_jar]
  rw [Handling.free, Handling.free, CookieJar.freeCookies,
    CookieJar.freeCookies, ← hjar, hmeta.freeMeta hwild]
  refine hfree.bind fun freed freed' hfreed => ?_
  refine (Agree.refl _).bind fun strings strings' hstrings => ?_
  rw [hfreed, show strings = strings' from hstrings]
  exact Agree.pure rfl

theorem free_clean {order : VisitOrder} {st : Handling τ}
    {a : List (Option Bytes)} (h : Returns (st.free order) a) :
    st.CleanFree := by
  obtain ⟨_, hcookies, h⟩ := returns_bind.mp h
  obtain ⟨_, hmeta, -⟩ := returns_bind.mp h
  refine ⟨fun entry hentry => ?_, freeMeta_written hmeta⟩
  exact CookieJar.freeVisits_written hcookies entry
    ((order.perm _).mem_iff.mpr hentry)

theorem handling_alike (arith : IntArith) (fns : StreamFns τ)
    (order : VisitOrder) (left : Nat → Bool) :
    Alike (Handling.call arith fns order left)
      (Handling.call arith fns order fun _ => false) (Handling.free order)
      (Handling.Left left) Handling.Clean Handling.CleanFree where
  call := call_left
  last := free_left

theorem newCookies_left {httpCookie : Option Bytes} {cookies : CookieJar}
    (h : Returns (newCookies left httpCookie) cookies) :
    ∃ cookies', Returns (newCookies (fun _ => false) httpCookie) cookies' ∧
      cookies.Left left cookies' := by
  have hempty : CookieJar.Left left ⟨[], []⟩ ⟨[], []⟩ := ⟨rfl, nofun⟩
  cases httpCookie with
  | none =>
      cases returns_pure.mp h
      exact ⟨_, returns_pure_self _, hempty⟩
  | some httpCookie => exact parse_left ⟨_, hempty, rfl⟩ h

theorem newCookies_unset {httpCookie : Option Bytes} {cookies' : CookieJar}
    (h : Returns (newCookies (fun _ => false) httpCookie) cookies')
    (hunset : cookies'.Unset left) :
    ∃ cookies, Returns (newCookies left httpCookie) cookies ∧
      cookies.Left left cookies' := by
  have hempty : CookieJar.Left left ⟨[], []⟩ ⟨[], []⟩ := ⟨rfl, nofun⟩
  cases httpCookie with
  | none =>
      cases returns_pure.mp h
      exact ⟨_, returns_pure_self _, hempty⟩
  | some httpCookie => exact parse_unset ⟨_, hempty, rfl⟩ h hunset

section

variable {heap : HeapContents τ} {env : Env} {input : Option (InputStream τ)}
  {fd : Int}

theorem newHandling_iff {contents : HeapContents τ} {st : Handling τ} :
    Returns (newHandling contents env input fd) st ↔
      ∃ cookies, Returns (newCookies contents.cookies (env "HTTP_COOKIE"))
          cookies ∧
        st = {
          response := {
            cookies := cookies, body := none, redirectPath := none,
            redirectFragment := none, status := 0, contentType := none,
            headers := [] }
          metaState := ⟨newMeta contents.block env input, env⟩
          fd := fd } := by
  constructor
  · intro h
    obtain ⟨response, hresponse, h⟩ := returns_bind.mp h
    obtain ⟨cookies, hcookies, hresponse⟩ := returns_bind.mp hresponse
    cases returns_pure.mp hresponse
    exact ⟨cookies, hcookies, (returns_pure.mp h).symm⟩
  · rintro ⟨cookies, hcookies, rfl⟩
    exact Returns.bind (hcookies.bind (returns_pure_self _))
      (returns_pure_self _)

theorem newMeta_zero_left : MetaState.Left ⟨newMeta heap.block env input, env⟩
    ⟨newMeta (HeapContents.zero τ).block env input, env⟩ := by
  refine newMeta_left ?_ ?_
  · cases hform : heap.block.inputAsForm with
    | wild => exact Or.inl rfl
    | null => exact Or.inr rfl
    | table hash => exact absurd hform (heap.inputAsForm_left hash)
  · cases hname : heap.block.strings .serverName with
    | wild => exact Or.inl rfl
    | null => exact Or.inr rfl
    | string text => exact absurd hname (heap.serverName_left text)

theorem newHandling_left {st : Handling τ}
    (h : Returns (newHandling heap env input fd) st) :
    ∃ fresh, Returns (newHandling (.zero τ) env input fd) fresh ∧
      st.Left heap.cookies fresh := by
  obtain ⟨cookies, hcookies, rfl⟩ := newHandling_iff.mp h
  obtain ⟨cookies', hcookies', hleft⟩ := newCookies_left hcookies
  exact ⟨_, newHandling_iff.mpr ⟨cookies', hcookies', rfl⟩, cookies, _, hleft,
    newMeta_zero_left, rfl⟩

theorem newHandling_unset {fresh : Handling τ}
    (h : Returns (newHandling (.zero τ) env input fd) fresh)
    (hunset : fresh.response.cookies.Unset heap.cookies) :
    ∃ st, Returns (newHandling heap env input fd) st ∧
      st.Left heap.cookies fresh := by
  obtain ⟨cookies', hcookies', rfl⟩ := newHandling_iff.mp h
  obtain ⟨cookies, hcookies, hleft⟩ := newCookies_unset hcookies' hunset
  exact ⟨_, newHandling_iff.mpr ⟨cookies, hcookies, rfl⟩, cookies, _, hleft,
    newMeta_zero_left, rfl⟩

variable {order : VisitOrder} {calls : List ResponseCall}
  {trace : List ResponseReport × List (Option Bytes)}

/-- A response is created, used and freed without a look at what its blocks
held: no value of HTTP_COOKIE goes into a cookie whose block held something,
and no call reads what was left. -/
def ReadsNothingLeft (arith : IntArith) (fns : StreamFns τ)
    (order : VisitOrder) (heap : HeapContents τ) (env : Env)
    (input : Option (InputStream τ)) (fd : Int) (calls : List ResponseCall) :
    Prop :=
  (∀ fresh, Returns (newHandling (.zero τ) env input fd) fresh →
    fresh.response.cookies.Unset heap.cookies) ∧
  ∀ st, Returns (newHandling heap env input fd) st →
    Meets (Handling.call arith fns order heap.cookies) Handling.Clean
      Handling.CleanFree calls st

/-- A response that reads nothing left lives as in blocks of zeros. -/
theorem handle_zero
    (h : Returns (handle arith fns order (.zero τ) env input fd calls) trace)
    (hnothing : ReadsNothingLeft arith fns order heap env input fd calls) :
    Returns (handle arith fns order heap env input fd calls) trace := by
  obtain ⟨fresh, hfresh, h⟩ := returns_bind.mp h
  obtain ⟨st, hst, hleft⟩ := newHandling_unset hfresh (hnothing.1 fresh hfresh)
  obtain ⟨trace', htrace', rfl⟩ :=
    ((handling_alike arith fns order heap.cookies).lifetime calls hleft
      (hnothing.2 st hst)).back trace h
  exact hst.bind htrace'

/-- A response that comes to its end has read nothing left. -/
theorem readsNothingLeft_of_handle
    (h : Returns (handle arith fns order heap env input fd calls) trace) :
    ReadsNothingLeft arith fns order heap env input fd calls := by
  obtain ⟨st, hst, h⟩ := returns_bind.mp h
  obtain ⟨fresh, hfresh, hleft⟩ := newHandling_left hst
  constructor
  · intro fresh' hfresh'
    cases hfresh.unique hfresh'
    obtain ⟨cookies, _, hcookies, -, -⟩ := hleft
    exact hcookies.2
  · intro st' hst'
    cases hst.unique hst'
    exact (handling_alike arith fns order heap.cookies).meets
      (fun _ => call_clean) (fun _ => free_clean) calls hleft h

/-- Two responses live alike exactly when neither reads what its blocks
held. -/
theorem handle_alike_iff (heap heap' : HeapContents τ)
    (h : Returns (handle arith fns order (.zero τ) env input fd calls) trace) :
    (∃ trace, Returns (handle arith fns order heap env input fd calls) trace ∧
      Returns (handle arith fns order heap' env input fd calls) trace) ↔
    ReadsNothingLeft arith fns order heap env input fd calls ∧
      ReadsNothingLeft arith fns order heap' env input fd calls := by
  constructor
  · rintro ⟨trace, htrace, htrace'⟩
    exact ⟨readsNothingLeft_of_handle htrace,
      readsNothingLeft_of_handle htrace'⟩
  · rintro ⟨hnothing, hnothing'⟩
    exact ⟨trace, handle_zero h hnothing, handle_zero h hnothing'⟩

end

end

def useCookie (left : Bool) (name : Bytes) (calls : List CookieCall) :
    Proc (List CookieReport × List (Option Bytes)) :=
  lifetime Cookie.call Cookie.free calls (newCadCgiCookie left name)

/-- A cookie with what its block held in its value does not come to its end:
a call reads the value, or `free` does. -/
theorem lifetime_wild {calls : List CookieCall} {this : Cookie}
    (hwild : this.value = .wild)
    {trace : List CookieReport × List (Option Bytes)} :
    ¬ Returns (lifetime Cookie.call Cookie.free calls this) trace := by
  induction calls generalizing this trace with
  | nil =>
      intro h
      obtain ⟨_, hfree, -⟩ := returns_bind.mp h
      obtain ⟨_, hload, -⟩ := returns_bind.mp hfree
      rw [hwild] at hload
      exact not_returns_undefined hload
  | cons c calls ih =>
      intro h
      obtain ⟨⟨report, next⟩, hcall, h⟩ := returns_bind.mp h
      obtain ⟨_, hrest, -⟩ := returns_bind.mp h
      refine ih ?_ hrest
      have hread : c.ReadsValue → true = false :=
        fun hread => absurd hwild (Cookie.call_written hcall hread)
      have hthis : this.leave true = this := by
        rw [Cookie.leave_true, ← hwild]
      obtain ⟨next', -, -, heq, -⟩ := (Cookie.call_leave hread).forth _
        (hthis.symm ▸ hcall)
      rw [show next = _ from heq]
      rfl

theorem load_returns {value : CharPtr} (h : value ≠ .wild) :
    ∃ text, Returns value.load text := by
  cases value with
  | wild => exact absurd rfl h
  | null => exact ⟨_, returns_pure_self _⟩
  | string s => exact ⟨_, returns_pure_self _⟩

/-- A cookie without a wild value answers every call. -/
theorem Cookie.call_returns {this : Cookie} (h : this.value ≠ .wild)
    (c : CookieCall) : ∃ report next, Returns (this.call c) (report, next) ∧
      next.value ≠ .wild := by
  cases c with
  | value =>
      obtain ⟨text, htext⟩ := load_returns h
      exact ⟨_, _, htext.bind (returns_pure_self _), h⟩
  | setValue allocated value =>
      have hfree : Returns this.value.free () := by
        cases hvalue : this.value with
        | wild => exact absurd hvalue h
        | null => exact returns_pure_self _
        | string s => exact returns_pure_self _
      cases allocated with
      | true => exact ⟨_, _, Returns.bind (hfree.bind (returns_pure_self (_, _)))
          (returns_pure_self _), nofun⟩
      | false => exact ⟨_, _, Returns.bind (hfree.bind (returns_pure_self (_, _)))
          (returns_pure_self _), nofun⟩
  | setExpires expires =>
      have hvalue : (this.setExpires expires).2.value = this.value := by
        unfold Cookie.setExpires
        split <;> rfl
      exact ⟨_, _, returns_pure_self _, hvalue.symm ▸ h⟩
  | setMaxAge maxAge =>
      have hvalue : (this.setMaxAge maxAge).2.value = this.value := by
        unfold Cookie.setMaxAge
        split <;> rfl
      exact ⟨_, _, returns_pure_self _, hvalue.symm ▸ h⟩
  | setDomain allocated domain =>
      cases allocated <;> exact ⟨_, _, returns_pure_self _, h⟩
  | setPath allocated path =>
      cases allocated <;> exact ⟨_, _, returns_pure_self _, h⟩
  | _ => exact ⟨_, _, returns_pure_self _, h⟩

theorem lifetime_returns {this : Cookie} (h : this.value ≠ .wild)
    (calls : List CookieCall) :
    ∃ trace, Returns (lifetime Cookie.call Cookie.free calls this) trace := by
  induction calls generalizing this with
  | nil =>
      obtain ⟨text, htext⟩ := load_returns h
      exact ⟨_, Returns.bind (htext.bind (returns_pure_self _))
        (returns_pure_self _)⟩
  | cons c calls ih =>
      obtain ⟨report, next, hcall, hnext⟩ := Cookie.call_returns h c
      obtain ⟨trace, htrace⟩ := ih hnext
      exact ⟨_, hcall.bind (htrace.bind (returns_pure_self _))⟩

/-- Two cookies live alike exactly when neither block held anything in
`value`. -/
theorem useCookie_alike_iff (left left' : Bool) (name : Bytes)
    (calls : List CookieCall) :
    (∃ trace, Returns (useCookie left name calls) trace ∧
      Returns (useCookie left' name calls) trace) ↔
    left = false ∧ left' = false := by
  have hnull : ∀ {left : Bool} {trace},
      Returns (useCookie left name calls) trace → left = false := by
    intro left trace h
    cases left with
    | false => rfl
    | true => exact absurd h (lifetime_wild rfl)
  constructor
  · rintro ⟨trace, htrace, htrace'⟩
    exact ⟨hnull htrace, hnull htrace'⟩
  · rintro ⟨rfl, rfl⟩
    obtain ⟨trace, htrace⟩ := lifetime_returns
      (show (newCadCgiCookie false name).value ≠ .wild from nofun) calls
    exact ⟨trace, htrace, htrace⟩

end Libcad
