/-
The CGI context: its responses, the input stream they share with it, and who
reads and frees the stream.
-/
import Libcad.CgiForm
import Libcad.CgiHandling
import Libcad.CgiMetaStable
import Libcad.CgiRuns
import Libcad.StreamInput
import Mathlib.Data.Finset.Card
import Mathlib.Data.Finset.Dedup

namespace Libcad

open Proc

/-- What is done to the input stream. -/
inductive StreamCall
  | read
  | free
deriving Repr, DecidableEq

/-- `cgi_impl`, with the environment, the responses it made (`none` once they
are freed), what went to the output stream and what was done to the input
stream. -/
structure Context (τ : Type) where
  fd : Int
  input : Option (InputStream τ)
  env : Env
  responses : List (Option (Handling τ))
  alive : Bool
  out : Bytes
  calls : List StreamCall

section

variable {τ : Type}

/-- `new_cad_cgi`, with the stream over `STDIN_FILENO`. -/
def newCadCgi (env : Env) (input : InputStream τ) : Context τ where
  fd := 0
  input := some input
  env := env
  responses := []
  alive := true
  out := []
  calls := []

def newCadCgiStream (env : Env) (input : Option (InputStream τ)) :
    Context τ where
  fd := -1
  input := input
  env := env
  responses := []
  alive := true
  out := []
  calls := []

/-- What the owner of a context and the handler do: a response is made, a
function of a response is called, the handler returns, a response is freed, the
context is freed. -/
inductive ContextOp (τ : Type)
  | run (heap : HeapContents τ)
  | call (response : Nat) (call : ResponseCall)
  | returned (response : Nat) (status : Int)
  | freeResponse (response : Nat)
  | free

/-- What a call puts into the output stream. -/
def ResponseReport.written : ResponseReport → Bytes
  | .output text => text
  | _ => []

/-- What `run` puts when the handler failed. -/
def failedMessage (status : Int) : Bytes :=
  chars "Status: 500\r\nContent-Type: text/plain\r\n\r\nInternal error: " ++
    chars "handler failed with status " ++ decimal status ++ chars "\r\n"

namespace Context

def response (this : Context τ) (i : Nat) : Option (Handling τ) :=
  this.responses[i]?.join

/-- What `input_as_form` does to the stream: it is read to the end of the form
and freed. -/
def form (fns : StreamFns τ) (this : Context τ) (st : Handling τ) :
    Proc (Context τ) :=
  match st.metaState.this.inputAsForm, this.input with
  | .null, some input => do
      let last ← Proc.loop (queryStep fns) (.start fns input)
      pure { this with
        input := some last.input, calls := this.calls ++ [.read, .free] }
  | _, _ => pure this

def shared (fns : StreamFns τ) (this : Context τ) (st : Handling τ)
    (c : ResponseCall) : Proc (Context τ) :=
  if c = .metaVariables .inputAsForm then this.form fns st else pure this

/-- A call of a function of a response, which finds the shared stream and the
environment as they are now. -/
def call (arith : IntArith) (fns : StreamFns τ) (order : VisitOrder)
    (stale : Nat → Bool) (this : Context τ) (i : Nat) (c : ResponseCall) :
    Proc (Context τ) := do
  let st ← Proc.ofOption (this.response i)
  let found : Handling τ := { st with metaState :=
    { this := { st.metaState.this with input := this.input },
      env := this.env } }
  let (report, left) ← found.call arith fns order stale c
  let this ← this.shared fns st c
  pure { this with
    responses := this.responses.set i (some left),
    env := left.metaState.env, out := this.out ++ report.written }

/-- The `free` of a response. -/
def freeResponse (order : VisitOrder) (this : Context τ) (i : Nat) :
    Proc (Context τ) := do
  let st ← Proc.ofOption (this.response i)
  let _ ← st.free order
  pure { this with responses := this.responses.set i none }

/-- `free_output`, which takes the output stream for an input stream: in the
place of `memory.free` it finds `realloc`, and calls it with a pointer into the
object. -/
def freeOutput : Proc Unit := Proc.undefined

/-- `free_cgi`: a context over `STDIN_FILENO` frees its output stream and then
its input stream. -/
def free (this : Context τ) : Proc (Context τ) :=
  if this.fd = 0 then do
    let _ ← freeOutput
    pure { this with alive := false, calls := this.calls ++ [.free] }
  else pure { this with alive := false }

/-- One operation; `run` and `free` of a context that is freed are
undefined. -/
def step (arith : IntArith) (fns : StreamFns τ) (order : VisitOrder)
    (stale : Nat → Bool) (this : Context τ) : ContextOp τ → Proc (Context τ)
  | .run heap =>
      if this.alive then do
        let st ← newHandling heap this.env this.input
          (if this.fd = 0 then 1 else -1)
        pure { this with responses := this.responses ++ [some st] }
      else Proc.undefined
  | .call i c => this.call arith fns order stale i c
  | .returned i status =>
      if status = 0 then pure this
      else do
        let this ← this.freeResponse order i
        pure { this with out := this.out ++ failedMessage status }
  | .freeResponse i => this.freeResponse order i
  | .free => if this.alive then this.free else Proc.undefined

def run (arith : IntArith) (fns : StreamFns τ) (order : VisitOrder)
    (stale : Nat → Bool) : List (ContextOp τ) → Context τ → Proc (Context τ)
  | [], this => pure this
  | op :: ops, this => do
      let this ← this.step arith fns order stale op
      run arith fns order stale ops this

end Context

/-- The stream is freed at most once and not read after it was freed. -/
def SingleOwner (calls : List StreamCall) : Prop :=
  calls.count .free ≤ 1 ∧
    calls.Pairwise fun call later => call = .free → later ≠ .read

namespace ContextOp

/-- The response on which `input_as_form` is called. -/
def form? : ContextOp τ → Option Nat
  | .call i c => if c = .metaVariables .inputAsForm then some i else none
  | _ => none

/-- The responses on which `input_as_form` is called. -/
def readers (ops : List (ContextOp τ)) : Finset Nat :=
  (ops.filterMap form?).toFinset

/-- How many there are that free the stream: these responses, if there is
one. -/
def owners (start : Context τ) (ops : List (ContextOp τ)) : Nat :=
  if start.input.isSome then (readers ops).card else 0

end ContextOp

/-- What was done to the stream when so many owners freed it. -/
structure FreedBy (calls : List StreamCall) (n : Nat) : Prop where
  count_free : calls.count .free = n
  none : n = 0 → calls = []
  one : n = 1 → calls = [.read, .free] ∨ calls = [.free]

theorem freedBy_nil : FreedBy [] 0 where
  count_free := rfl
  none _ := rfl
  one h := by cases h

theorem FreedBy.append {calls more : List StreamCall} {n : Nat}
    (h : FreedBy calls n) (hmore : more = [.read, .free] ∨ more = [.free]) :
    FreedBy (calls ++ more) (n + 1) where
  count_free := by
    rw [List.count_append, h.count_free]
    rcases hmore with rfl | rfl <;> rfl
  none hn := absurd hn (Nat.succ_ne_zero n)
  one hn := by
    rw [h.none (Nat.succ.inj hn), List.nil_append]
    exact hmore

theorem FreedBy.singleOwner_iff {calls : List StreamCall} {n : Nat}
    (h : FreedBy calls n) : SingleOwner calls ↔ n ≤ 1 := by
  constructor
  · exact fun hsingle => h.count_free ▸ hsingle.1
  · intro hn
    refine ⟨h.count_free ▸ hn, ?_⟩
    obtain rfl | rfl := Nat.le_one_iff_eq_zero_or_eq_one.mp hn
    · rw [h.none rfl]
      exact List.Pairwise.nil
    · rcases h.one rfl with heq | heq
      · rw [heq]
        decide
      · rw [heq]
        decide

theorem FreedBy.reading_iff {calls : List StreamCall} {n : Nat}
    (h : FreedBy calls n) : SingleOwner (calls ++ [.read]) ↔ n = 0 := by
  constructor
  · rintro ⟨-, hpairs⟩
    have hlast := (List.pairwise_append.mp hpairs).2.2
    by_contra hn
    have hmem : StreamCall.free ∈ calls :=
      List.count_pos_iff.mp (by rw [h.count_free]; omega)
    exact hlast _ hmem _ List.mem_cons_self rfl rfl
  · rintro rfl
    rw [h.none rfl]
    exact ⟨by decide, by decide⟩

variable {arith : IntArith} {fns : StreamFns τ} {order : VisitOrder}
  {stale : Nat → Bool}

theorem inputAsForm_left {st next : MetaState τ} {report : MetaReport}
    (h : Returns (st.call arith fns .inputAsForm) (report, next))
    (hinput : st.this.input.isSome) :
    st.this.inputAsForm ≠ .wild ∧
      ∃ hash, next.this.inputAsForm = .table hash := by
  obtain ⟨⟨result, st₁⟩, hresult, h⟩ := returns_bind.mp h
  cases returns_pure.mp h
  obtain ⟨hash, hparse, hresult⟩ := returns_bind.mp hresult
  cases returns_pure.mp hresult
  obtain ⟨input, hinput⟩ := Option.isSome_iff_exists.mp hinput
  cases hcached : st.this.inputAsForm with
  | wild =>
      rw [hcached] at hparse
      exact absurd hparse not_returns_undefined
  | table old =>
      rw [hcached] at hparse
      cases returns_pure.mp hparse
      refine ⟨?_, old, rfl⟩
      intro heq
      cases heq
  | null =>
      rw [hcached, hinput] at hparse
      obtain ⟨table, -, hparse⟩ := returns_bind.mp hparse
      cases returns_pure.mp hparse
      refine ⟨?_, table, rfl⟩
      intro heq
      cases heq

/-- The other functions of a response leave the form alone. -/
theorem Handling.call_form {st left : Handling τ} {report : ResponseReport}
    {c : ResponseCall} (hc : c ≠ .metaVariables .inputAsForm)
    (h : Returns (st.call arith fns order stale c) (report, left)) :
    left.metaState.this.inputAsForm = st.metaState.this.inputAsForm := by
  cases c with
  | metaVariables call =>
      obtain ⟨⟨answer, next⟩, hcall, h⟩ := returns_bind.mp h
      cases returns_pure.mp h
      have hne : MetaCall.inputAsForm ≠ call := fun heq => hc (by rw [heq])
      exact (MetaState.call_frame hne hcall).1
  | setHeader allocated field value =>
      obtain ⟨result, -, h⟩ := returns_bind.mp h
      cases returns_pure.mp h
      rfl
  | flush =>
      obtain ⟨⟨text, response⟩, -, h⟩ := returns_bind.mp h
      cases returns_pure.mp h
      rfl
  | setCookie pointer =>
      obtain ⟨⟨result, cookies⟩, -, h⟩ := returns_bind.mp h
      cases returns_pure.mp h
      rfl
  | cookie pointer call =>
      obtain ⟨cookie, -, h⟩ := returns_bind.mp h
      obtain ⟨⟨answer, cookie'⟩, -, h⟩ := returns_bind.mp h
      cases returns_pure.mp h
      rfl
  | freeCookie pointer =>
      obtain ⟨⟨freed, cookies⟩, -, h⟩ := returns_bind.mp h
      cases returns_pure.mp h
      rfl
  | _ =>
      cases returns_pure.mp h
      rfl

open ContextOp

theorem readers_append (ops : List (ContextOp τ)) (op : ContextOp τ) :
    readers (ops ++ [op]) = readers ops ∪ (op.form?.toList).toFinset := by
  rw [readers, List.filterMap_append, List.toFinset_append]
  cases hop : op.form? with
  | none => rw [List.filterMap_cons_none hop]; rfl
  | some i => rw [List.filterMap_cons_some hop]; rfl

/-- What the operations so far say about the responses and the stream. -/
structure Context.Tracks (this start : Context τ) (ops : List (ContextOp τ)) :
    Prop where
  input_eq : this.input.isSome = start.input.isSome
  readers_lt : ∀ i ∈ readers ops, i < this.responses.length
  null : start.input.isSome → ∀ i st, this.responses[i]? = some (some st) →
    st.metaState.this.inputAsForm = .null → i ∉ readers ops
  table : start.input.isSome → ∀ i st hash,
    this.responses[i]? = some (some st) →
    st.metaState.this.inputAsForm = .table hash → i ∈ readers ops
  freed : FreedBy this.calls (owners start ops)

namespace Context

variable {start this that : Context τ} {ops : List (ContextOp τ)}
  {op : ContextOp τ}

/-- An operation that does not read the form, and leaves the responses with the
forms they had. -/
theorem Tracks.same (h : this.Tracks start ops) (hform : op.form? = none)
    (hinput : that.input = this.input) (hcalls : that.calls = this.calls)
    (hlength : this.responses.length ≤ that.responses.length)
    (hresponses : ∀ i st, that.responses[i]? = some (some st) →
      (∃ st', this.responses[i]? = some (some st') ∧
        st.metaState.this.inputAsForm = st'.metaState.this.inputAsForm) ∨
      (this.responses.length ≤ i ∧
        ∀ hash, st.metaState.this.inputAsForm ≠ .table hash)) :
    that.Tracks start (ops ++ [op]) := by
  have hreaders : readers (ops ++ [op]) = readers ops := by
    rw [readers_append, hform]
    exact Finset.union_empty _
  refine ⟨hinput ▸ h.input_eq, ?_, ?_, ?_, ?_⟩
  · rw [hreaders]
    exact fun i hi => Nat.lt_of_lt_of_le (h.readers_lt i hi) hlength
  · intro hsome i st hst hnull
    rw [hreaders]
    rcases hresponses i st hst with ⟨st', hst', hsame⟩ | ⟨hge, -⟩
    · exact h.null hsome i st' hst' (hsame.symm.trans hnull)
    · exact fun hi => absurd (h.readers_lt i hi) (Nat.not_lt.mpr hge)
  · intro hsome i st hash hst htable
    rw [hreaders]
    rcases hresponses i st hst with ⟨st', hst', hsame⟩ | ⟨-, hnone⟩
    · exact h.table hsome i st' hash hst' (hsame.symm.trans htable)
    · exact absurd htable (hnone hash)
  · rw [hcalls, owners, hreaders]
    exact h.freed

theorem getElem?_of_response {i : Nat} {st : Handling τ}
    (h : this.response i = some st) :
    this.responses[i]? = some (some st) := by
  rw [response] at h
  cases hget : this.responses[i]? with
  | none =>
      rw [hget] at h
      cases h
  | some o =>
      rw [hget] at h
      exact congrArg some h

theorem Tracks.freeResponse (h : this.Tracks start ops)
    (hform : op.form? = none) {i : Nat}
    (hrun : Returns (this.freeResponse order i) that) (out : Bytes) :
    ({ that with out := out } : Context τ).Tracks start (ops ++ [op]) := by
  obtain ⟨st, -, hrun⟩ := returns_bind.mp hrun
  obtain ⟨blocks, -, hrun⟩ := returns_bind.mp hrun
  cases returns_pure.mp hrun
  refine h.same hform rfl rfl ?_ ?_
  · rw [List.length_set]
  · intro j st' hget
    refine Or.inl ⟨st', ?_, rfl⟩
    by_cases hij : i = j
    · subst hij
      rw [List.getElem?_set_self'] at hget
      cases hi : this.responses[i]? with
      | none =>
          rw [hi] at hget
          cases hget
      | some o =>
          rw [hi] at hget
          cases hget
    · rwa [List.getElem?_set_ne hij] at hget

theorem Tracks.run (h : this.Tracks start ops) {heap : HeapContents τ}
    (hrun : Returns (this.step arith fns order stale (.run heap)) that) :
    that.Tracks start (ops ++ [.run heap]) := by
  rw [step] at hrun
  split at hrun
  next =>
    obtain ⟨st, hnew, hrun⟩ := returns_bind.mp hrun
    cases returns_pure.mp hrun
    refine h.same rfl rfl rfl ?_ ?_
    · rw [List.length_append]
      exact Nat.le_add_right _ _
    · intro i st' hget
      rcases Nat.lt_or_ge i this.responses.length with hlt | hge
      · rw [List.getElem?_append_left hlt] at hget
        exact Or.inl ⟨st', hget, rfl⟩
      · refine Or.inr ⟨hge, ?_⟩
        rw [List.getElem?_append_right hge] at hget
        have hmem := List.mem_of_getElem? hget
        cases List.mem_singleton.mp hmem
        obtain ⟨response, -, hnew⟩ := returns_bind.mp hnew
        cases returns_pure.mp hnew
        exact heap.inputAsForm_left
  next => exact absurd hrun not_returns_undefined

/-- What a call leaves of the response and of the stream. -/
theorem call_returns {i : Nat} {c : ResponseCall}
    (hrun : Returns (this.call arith fns order stale i c) that) :
    ∃ st left report next, this.responses[i]? = some (some st) ∧
      Returns (Handling.call arith fns order stale
        { st with metaState :=
          { this := { st.metaState.this with input := this.input },
            env := this.env } } c) (report, left) ∧
      Returns (this.shared fns st c) next ∧
      that = { next with
        responses := next.responses.set i (some left),
        env := left.metaState.env, out := next.out ++ report.written } := by
  obtain ⟨st, hst, hrun⟩ := returns_bind.mp hrun
  obtain ⟨⟨report, left⟩, hcall, hrun⟩ := returns_bind.mp hrun
  obtain ⟨next, hshared, hrun⟩ := returns_bind.mp hrun
  exact ⟨st, left, report, next,
    getElem?_of_response (returns_ofOption.mp hst), hcall, hshared,
    (returns_pure.mp hrun).symm⟩

theorem getElem?_set_response {i j : Nat} {left st : Handling τ}
    {responses : List (Option (Handling τ))}
    (h : (responses.set i (some left))[j]? = some (some st)) :
    (j = i ∧ st = left) ∨ (j ≠ i ∧ responses[j]? = some (some st)) := by
  by_cases hij : i = j
  · subst hij
    rw [List.getElem?_set_self'] at h
    cases hi : responses[i]? with
    | none =>
        rw [hi] at h
        cases h
    | some o =>
        rw [hi] at h
        cases h
        exact Or.inl ⟨rfl, rfl⟩
  · rw [List.getElem?_set_ne hij] at h
    exact Or.inr ⟨Ne.symm hij, h⟩

theorem Tracks.call (h : this.Tracks start ops) {i : Nat} {c : ResponseCall}
    (hc : c ≠ .metaVariables .inputAsForm)
    (hrun : Returns (this.call arith fns order stale i c) that) :
    that.Tracks start (ops ++ [.call i c]) := by
  obtain ⟨st, left, report, next, hget, hcall, hnext, rfl⟩ :=
    call_returns hrun
  rw [shared, if_neg hc] at hnext
  cases returns_pure.mp hnext
  have hform : (ContextOp.call i c : ContextOp τ).form? = none := if_neg hc
  refine h.same hform rfl rfl ?_ ?_
  · rw [List.length_set]
  · intro j st' hj
    rcases getElem?_set_response hj with ⟨rfl, rfl⟩ | ⟨-, hother⟩
    · have hleft := Handling.call_form hc hcall
      exact Or.inl ⟨st, hget, hleft⟩
    · exact Or.inl ⟨st', hother, rfl⟩

/-- `input_as_form` reads and frees the stream where the form is not there
yet. -/
theorem form_returns {st : Handling τ}
    (hform : Returns (this.form fns st) that) :
    (that = this ∧ (st.metaState.this.inputAsForm ≠ .null ∨
      this.input = none)) ∨
    (st.metaState.this.inputAsForm = .null ∧ this.input.isSome ∧
      ∃ input, that = { this with
        input := some input, calls := this.calls ++ [.read, .free] }) := by
  rw [Context.form] at hform
  split at hform
  next input hnull hinput =>
    obtain ⟨last, -, hform⟩ := returns_bind.mp hform
    cases returns_pure.mp hform
    exact Or.inr ⟨hnull, hinput ▸ rfl, last.input, rfl⟩
  next hother =>
    cases returns_pure.mp hform
    refine Or.inl ⟨rfl, ?_⟩
    by_contra hboth
    obtain ⟨hnull, hinput⟩ := not_or.mp hboth
    obtain ⟨input, hinput⟩ := Option.ne_none_iff_exists'.mp hinput
    exact hother input (not_not.mp hnull) hinput

theorem Tracks.form (h : this.Tracks start ops) {i : Nat}
    (hrun : Returns (this.call arith fns order stale i
      (.metaVariables .inputAsForm)) that) :
    that.Tracks start
      (ops ++ [ContextOp.call i (.metaVariables .inputAsForm)]) := by
  obtain ⟨st, left, report, next, hget, hcall, hnext, rfl⟩ :=
    call_returns hrun
  rw [shared, if_pos rfl] at hnext
  obtain ⟨⟨answer, after⟩, hmeta, hleft⟩ := returns_bind.mp hcall
  cases returns_pure.mp hleft
  have hlt : i < this.responses.length :=
    (List.getElem?_eq_some_iff.mp hget).1
  have hreaders : readers
      (ops ++ [ContextOp.call i (.metaVariables .inputAsForm)]) =
      insert i (readers ops) := by
    rw [readers_append, Finset.union_comm, Finset.insert_eq]
    rfl
  have hsame : next.responses = this.responses ∧
      next.input.isSome = this.input.isSome := by
    rcases form_returns hnext with ⟨rfl, -⟩ | ⟨-, hsome, input, rfl⟩
    · exact ⟨rfl, rfl⟩
    · exact ⟨rfl, hsome.symm⟩
  obtain ⟨hresponses, hinput⟩ := hsame
  refine ⟨hinput.trans h.input_eq, ?_, ?_, ?_, ?_⟩
  · intro j hj
    rw [hresponses, List.length_set]
    rw [hreaders] at hj
    rcases Finset.mem_insert.mp hj with rfl | hj
    · exact hlt
    · exact h.readers_lt j hj
  · intro hsome j st' hj hnull
    rw [hresponses] at hj
    rw [hreaders, Finset.mem_insert, not_or]
    rcases getElem?_set_response hj with ⟨rfl, rfl⟩ | ⟨hne, hother⟩
    · obtain ⟨-, hash, htable⟩ := inputAsForm_left hmeta (h.input_eq.trans hsome)
      cases hnull.symm.trans htable
    · exact ⟨hne, h.null hsome j st' hother hnull⟩
  · intro hsome j st' hash hj htable
    rw [hresponses] at hj
    rw [hreaders, Finset.mem_insert]
    rcases getElem?_set_response hj with ⟨rfl, -⟩ | ⟨-, hother⟩
    · exact Or.inl rfl
    · exact Or.inr (h.table hsome j st' hash hother htable)
  · rw [owners, hreaders]
    rcases form_returns hnext with ⟨rfl, hold⟩ | ⟨hnull, hsome, input, rfl⟩
    · have howners : (if start.input.isSome then (insert i (readers ops)).card
          else 0) = owners start ops := by
        rw [owners]
        by_cases hstart : start.input.isSome
        · have hin := h.input_eq.trans hstart
          obtain ⟨hwild, -⟩ := inputAsForm_left hmeta hin
          have htable : ∃ hash,
              st.metaState.this.inputAsForm = .table hash := by
            cases hcached : st.metaState.this.inputAsForm with
            | wild => exact absurd hcached hwild
            | table hash => exact ⟨hash, rfl⟩
            | null =>
                rcases hold with hold | hold
                · exact absurd hcached hold
                · rw [hold] at hin
                  cases hin
          obtain ⟨hash, htable⟩ := htable
          rw [Finset.insert_eq_of_mem (h.table hstart i st hash hget htable)]
        · rw [if_neg hstart, if_neg hstart]
      rw [howners]
      exact h.freed
    · have hstart : start.input.isSome := h.input_eq ▸ hsome
      have hcard : (insert i (readers ops)).card = (readers ops).card + 1 :=
        Finset.card_insert_of_notMem (h.null hstart i st hget hnull)
      have hfreed := h.freed.append (Or.inl rfl)
      rw [owners, if_pos hstart] at hfreed
      rw [if_pos hstart, hcard]
      exact hfreed

/-- The end of a context: one that made its streams does not come to it. -/
theorem Tracks.free (h : this.Tracks start ops)
    (hrun : Returns (this.step arith fns order stale .free) that) :
    that.Tracks start (ops ++ [ContextOp.free]) := by
  rw [step] at hrun
  split at hrun
  next =>
    rw [Context.free] at hrun
    split at hrun
    next =>
      obtain ⟨_, hfreed, -⟩ := returns_bind.mp hrun
      exact absurd hfreed not_returns_undefined
    next =>
      cases returns_pure.mp hrun
      exact h.same rfl rfl rfl (Nat.le_refl _)
        fun i st hget => Or.inl ⟨st, hget, rfl⟩
  next => exact absurd hrun not_returns_undefined

theorem Tracks.step (h : this.Tracks start ops)
    (hrun : Returns (this.step arith fns order stale op) that) :
    that.Tracks start (ops ++ [op]) := by
  cases op with
  | run heap => exact h.run hrun
  | call i c =>
      by_cases hc : c = .metaVariables .inputAsForm
      · subst hc
        exact h.form hrun
      · exact h.call hc hrun
  | returned i status =>
      rw [Context.step] at hrun
      split at hrun
      next =>
        cases returns_pure.mp hrun
        exact h.same rfl rfl rfl (Nat.le_refl _)
          fun i st hget => Or.inl ⟨st, hget, rfl⟩
      next =>
        obtain ⟨next, hfree, hrun⟩ := returns_bind.mp hrun
        cases returns_pure.mp hrun
        exact h.freeResponse rfl hfree _
  | freeResponse i =>
      have hform : (ContextOp.freeResponse i : ContextOp τ).form? = none := rfl
      have hfreed := h.freeResponse hform hrun that.out
      exact hfreed
  | free => exact h.free hrun

theorem Tracks.runs (more : List (ContextOp τ)) :
    ∀ {ops : List (ContextOp τ)} {this : Context τ},
      this.Tracks start ops →
      Returns (Context.run arith fns order stale more this) that →
      that.Tracks start (ops ++ more) := by
  induction more with
  | nil =>
      intro ops this h hrun
      cases returns_pure.mp hrun
      rwa [List.append_nil]
  | cons op more ih =>
      intro ops this h hrun
      obtain ⟨next, hstep, hrun⟩ := returns_bind.mp hrun
      rw [List.append_cons]
      exact ih (h.step hstep) hrun

/-- A context as one of the constructors leaves it. -/
structure New (this : Context τ) : Prop where
  responses : this.responses = []
  calls : this.calls = []

theorem New.tracks (h : this.New) : this.Tracks this [] where
  input_eq := rfl
  readers_lt _ hi := absurd hi (Finset.notMem_empty _)
  null _ _ _ _ _ := Finset.notMem_empty _
  table _ i st _ hget _ := by
    rw [h.responses] at hget
    cases hget
  freed := by
    have howners : owners this ([] : List (ContextOp τ)) = 0 := by
      rw [owners]
      split <;> rfl
    rw [h.calls, howners]
    exact freedBy_nil

theorem newCadCgi_new (env : Env) (input : InputStream τ) :
    (newCadCgi env input).New := ⟨rfl, rfl⟩

theorem newCadCgiStream_new (env : Env) (input : Option (InputStream τ)) :
    (newCadCgiStream env input).New := ⟨rfl, rfl⟩

end Context

end

/-- The input stream has one owner exactly when at most one response reads a
form.  It is the same while one more response is reading. -/
theorem context_singleOwner_iff {τ : Type} (arith : IntArith)
    (fns : StreamFns τ) (order : VisitOrder) (stale : Nat → Bool)
    (start this : Context τ) (ops : List (ContextOp τ))
    (hstart : (∃ env input, start = newCadCgi env input) ∨
      ∃ env input, start = newCadCgiStream env input)
    (hrun : Returns (Context.run arith fns order stale ops start) this) :
    (SingleOwner this.calls ↔ ContextOp.owners start ops ≤ 1) ∧
      ∀ i st, this.response i = some st →
        st.metaState.this.inputAsForm = .null → this.input.isSome →
        (SingleOwner (this.calls ++ [.read]) ↔
          ContextOp.owners start ops + 1 ≤ 1) := by
  have hnew : start.New := by
    rcases hstart with ⟨env, input, rfl⟩ | ⟨env, input, rfl⟩
    · exact Context.newCadCgi_new env input
    · exact Context.newCadCgiStream_new env input
  have hfreed := (hnew.tracks.runs ops hrun).freed
  rw [List.nil_append] at hfreed
  refine ⟨hfreed.singleOwner_iff, fun i st _ _ _ => ?_⟩
  rw [hfreed.reading_iff]
  omega

/-- A form read from a stream of the caller's. -/
theorem context_singleOwner_stream :
    ∃ this, Returns (Context.run intChecked noStreams .entries
        (fun _ => false) [.run (HeapContents.zero Empty),
          .call 0 (.metaVariables .inputAsForm), .free]
        (newCadCgiStream (fun _ => none)
          (some (newInputStreamFromString [97, 61, 49])))) this ∧
      SingleOwner this.calls := by
  have hrun : Returns (Context.run intChecked noStreams .entries
      (fun _ => false) [.run (HeapContents.zero Empty),
        .call 0 (.metaVariables .inputAsForm), .free]
      (newCadCgiStream (fun _ => none)
        (some (newInputStreamFromString [97, 61, 49])))) _ := ⟨9, rfl⟩
  exact ⟨_, hrun, (context_singleOwner_iff intChecked noStreams .entries
    (fun _ => false) _ _ _ (Or.inr ⟨_, _, rfl⟩) hrun).1.mpr (by decide)⟩

/-- Two requests whose handlers read the form. -/
theorem context_not_singleOwner :
    ∃ this, Returns (Context.run intChecked noStreams .entries
        (fun _ => false) [.run (HeapContents.zero Empty),
          .call 0 (.metaVariables .inputAsForm), .returned 0 0,
          .freeResponse 0, .run (HeapContents.zero Empty),
          .call 1 (.metaVariables .inputAsForm), .returned 1 0,
          .freeResponse 1, .free]
        (newCadCgiStream (fun _ => none)
          (some (newInputStreamFromString [97, 61, 49])))) this ∧
      this.calls = [.read, .free, .read, .free] ∧
      ¬ SingleOwner this.calls := by
  refine ⟨_, ⟨9, rfl⟩, rfl, ?_⟩
  rintro ⟨hcount, -⟩
  exact absurd hcount (by decide)

end Libcad
