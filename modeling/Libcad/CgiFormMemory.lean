/-
The buffers of `parse_query_or_form`: which blocks of memory its two pointers
hold, what becomes of each block, and what is stored in the table.
-/
import Libcad.Agree
import Libcad.CgiForm
import Libcad.Machine

namespace Libcad

open Proc

/-- A block, by the number of blocks made before it, and the text put in it. -/
structure OutString where
  block : Nat
  text : Bytes
deriving Repr, DecidableEq

/-- The calls that concern the buffers; `none` is the NULL pointer. -/
inductive MemoryCall
  | malloc
  | free (p : Option OutString)
  | set (attr value : Option OutString)
deriving Repr, DecidableEq

namespace MemoryCall

/-- The call frees the block or stores it in the table.  The table keeps a copy
of the attribute, not the buffer. -/
def ends (block : Nat) : MemoryCall → Bool
  | .malloc => false
  | .free p => decide (p.map OutString.block = some block)
  | .set _ value => decide (value.map OutString.block = some block)

def blocks (log : List MemoryCall) : Nat := log.count .malloc

/-- How often the block was freed or stored. -/
def ended (log : List MemoryCall) (block : Nat) : Nat :=
  log.countP (ends block)

/-- No call of `set` has a pointer that is NULL. -/
def NeverNull (log : List MemoryCall) : Prop :=
  ∀ attr value, MemoryCall.set attr value ∈ log →
    attr ≠ none ∧ value ≠ none

/-- The blocks that are neither freed nor stored, while every other one was
freed or stored once. -/
structure Owns (log : List MemoryCall) (live : List Nat) : Prop where
  nodup : live.Nodup
  live_made : ∀ block ∈ live, block < blocks log
  live_ended : ∀ block ∈ live, ended log block = 0
  rest_ended : ∀ block, block ∉ live → block < blocks log →
    ended log block = 1
  later_ended : ∀ block, blocks log ≤ block → ended log block = 0

theorem blocks_append (log more : List MemoryCall) :
    blocks (log ++ more) = blocks log + blocks more := List.count_append

theorem ended_append (log more : List MemoryCall) (block : Nat) :
    ended (log ++ more) block = ended log block + ended more block :=
  List.countP_append

variable {log : List MemoryCall} {live live' : List Nat}

theorem owns_nil : Owns [] [] where
  nodup := List.nodup_nil
  live_made _ h := absurd h List.not_mem_nil
  live_ended _ h := absurd h List.not_mem_nil
  rest_ended _ _ h := absurd h (Nat.not_lt_zero _)
  later_ended _ _ := rfl

theorem Owns.perm (h : Owns log live) (hperm : live.Perm live') :
    Owns log live' where
  nodup := hperm.nodup_iff.mp h.nodup
  live_made block hmem := h.live_made block (hperm.mem_iff.mpr hmem)
  live_ended block hmem := h.live_ended block (hperm.mem_iff.mpr hmem)
  rest_ended block hmem := h.rest_ended block (hperm.mem_iff.not.mpr hmem)
  later_ended := h.later_ended

theorem Owns.malloc (h : Owns log live) :
    Owns (log ++ [.malloc]) (blocks log :: live) := by
  have hblocks : blocks (log ++ [.malloc]) = blocks log + 1 :=
    blocks_append log _
  have hended : ∀ block, ended (log ++ [.malloc]) block = ended log block :=
    fun block => ended_append log _ block
  refine ⟨?_, ?_, ?_, ?_, ?_⟩
  · exact List.nodup_cons.mpr
      ⟨fun hmem => Nat.lt_irrefl _ (h.live_made _ hmem), h.nodup⟩
  · intro block hmem
    rcases List.mem_cons.mp hmem with rfl | hmem
    · omega
    · have := h.live_made block hmem
      omega
  · intro block hmem
    rw [hended]
    rcases List.mem_cons.mp hmem with rfl | hmem
    · exact h.later_ended _ (Nat.le_refl _)
    · exact h.live_ended block hmem
  · intro block hmem hlt
    obtain ⟨hne, hmem⟩ := not_or.mp (List.mem_cons.not.mp hmem)
    rw [hended]
    exact h.rest_ended block hmem (by omega)
  · intro block hle
    rw [hended]
    exact h.later_ended block (by omega)

theorem append_call {call : MemoryCall} (hcall : call ≠ .malloc)
    (log : List MemoryCall) :
    blocks (log ++ [call]) = blocks log ∧ ∀ block,
      ended (log ++ [call]) block =
        ended log block + if call.ends block then 1 else 0 := by
  constructor
  · have hnone : blocks [call] = 0 := List.count_eq_zero.mpr
      fun hmem => hcall (List.mem_singleton.mp hmem).symm
    rw [blocks_append, hnone, Nat.add_zero]
  · intro block
    rw [ended_append, ended, ended, List.countP_singleton]

theorem Owns.spend {block : Nat} {call : MemoryCall}
    (h : Owns log (block :: live)) (hcall : call ≠ .malloc)
    (hends : ∀ other, call.ends other = decide (other = block)) :
    Owns (log ++ [call]) live := by
  obtain ⟨hblocks, hended⟩ := append_call hcall log
  obtain ⟨hnot, hnodup⟩ := List.nodup_cons.mp h.nodup
  have hmade := h.live_made block List.mem_cons_self
  have hother : ∀ {other}, other ≠ block →
      ended (log ++ [call]) other = ended log other := by
    intro other hne
    rw [hended, hends, decide_eq_false hne]
    rfl
  refine ⟨hnodup, ?_, ?_, ?_, ?_⟩
  · intro other hmem
    exact hblocks ▸ h.live_made other (List.mem_cons_of_mem block hmem)
  · intro other hmem
    rw [hother fun heq => hnot (heq ▸ hmem)]
    exact h.live_ended other (List.mem_cons_of_mem block hmem)
  · intro other hmem hlt
    by_cases heq : other = block
    · rw [heq, hended, hends, h.live_ended block List.mem_cons_self,
        decide_eq_true rfl]
      rfl
    · rw [hother heq]
      refine h.rest_ended other ?_ (hblocks ▸ hlt)
      exact List.mem_cons.not.mpr (not_or.mpr ⟨heq, hmem⟩)
  · intro other hle
    rw [hother (by omega)]
    exact h.later_ended other (hblocks ▸ hle)

theorem Owns.skip {call : MemoryCall} (h : Owns log live)
    (hcall : call ≠ .malloc) (hends : ∀ other, call.ends other = false) :
    Owns (log ++ [call]) live := by
  obtain ⟨hblocks, hended⟩ := append_call hcall log
  have hsame : ∀ other, ended (log ++ [call]) other = ended log other := by
    intro other
    rw [hended, hends]
    rfl
  refine ⟨h.nodup, fun other hmem => hblocks ▸ h.live_made other hmem,
    fun other hmem => ?_, fun other hmem hlt => ?_, fun other hle => ?_⟩
  · exact (hsame other).trans (h.live_ended other hmem)
  · exact (hsame other).trans (h.rest_ended other hmem (hblocks ▸ hlt))
  · exact (hsame other).trans (h.later_ended other (hblocks ▸ hle))

def blocksOf (p : Option OutString) : List Nat := p.toList.map OutString.block

theorem some_block_eq (buffer : OutString) (other : Nat) :
    decide ((some buffer).map OutString.block = some other) =
      decide (other = buffer.block) :=
  decide_eq_decide.mpr
    ⟨fun h => (Option.some.inj h).symm, fun h => congrArg some h.symm⟩

theorem Owns.free {p : Option OutString} (h : Owns log (blocksOf p ++ live)) :
    Owns (log ++ [.free p]) live := by
  cases p with
  | none =>
      exact h.skip (fun heq => by cases heq) fun other => rfl
  | some buffer =>
      exact @Owns.spend _ _ buffer.block _ h (fun heq => by cases heq)
        (some_block_eq buffer)

/-- A new block, and the end of the one it replaces. -/
theorem Owns.replace {p : Option OutString} (h : Owns log (blocksOf p ++ live)) :
    Owns (log ++ [.malloc] ++ p.toList.map fun old => .free (some old))
      (blocks log :: live) := by
  cases p with
  | none =>
      rw [Option.toList_none, List.map_nil, List.append_nil]
      exact h.malloc
  | some buffer => exact (h.malloc.perm (List.Perm.swap _ _ _)).free

theorem Owns.store {attr value : OutString}
    (h : Owns log [attr.block, value.block]) :
    Owns (log ++ [.set (some attr) (some value), .free (some attr)]) [] := by
  have hset : Owns (log ++ [.set (some attr) (some value)])
      [attr.block] := by
    exact (h.perm (List.Perm.swap _ _ _)).spend (fun heq => by cases heq)
      (some_block_eq value)
  rw [List.append_cons]
  exact Owns.free (p := some attr) hset

theorem NeverNull.append {more : List MemoryCall} (h : NeverNull log)
    (hmore : ∀ attr value, MemoryCall.set attr value ∈ more →
      attr ≠ none ∧ value ≠ none) : NeverNull (log ++ more) := by
  intro attr value hmem
  rcases List.mem_append.mp hmem with hmem | hmem
  · exact h attr value hmem
  · exact hmore attr value hmem

end MemoryCall

/-- `struct cad_output_stream_string` -/
structure StringOutput where
  string : Target
  capacity : Nat
  count : Nat
deriving Repr, DecidableEq

/-- The local variables of `parse_query_or_form`, with the calls made so far. -/
structure FormMemory (τ : Type) where
  s : Int
  attr : Option OutString
  value : Option OutString
  out : StringOutput
  encoded : UInt8
  input : InputStream τ
  c : Int
  log : List MemoryCall

variable {τ : Type}

namespace FormMemory

/-- `*(this->string)` -/
def string (st : FormMemory τ) : Option OutString :=
  match st.out.string with
  | .attr => st.attr
  | .value => st.value

/-- `*(this->string) = p` -/
def setString (st : FormMemory τ) (p : Option OutString) : FormMemory τ :=
  match st.out.string with
  | .attr => { st with attr := p }
  | .value => { st with value := p }

/-- `out = new_cad_output_stream_from_string(string, memory)` -/
def newOut (st : FormMemory τ) (string : Target) : FormMemory τ :=
  ({ st with out := ⟨string, 0, 0⟩ } : FormMemory τ).setString none

/-- The body of the loop of `vput` that doubles the capacity. -/
def doubleStep (needed : Int) (capacity : Nat) : Proc (Nat ⊕ Nat) :=
  if needed > capacity then do
    let capacity ← intMul capacity 2
    pure (.inl capacity)
  else pure (.inr capacity)

/-- `out->put(out, "%c", c)`: two bytes with the NUL.  Nothing reads behind the
first NUL of a buffer, which is as far as `strcpy` copies. -/
def put (st : FormMemory τ) (b : UInt8) : Proc (FormMemory τ) := do
  let needed ← intChecked (2 + st.out.count)
  let capacity ← Proc.loop (doubleStep needed)
    (if st.out.capacity = 0 then 128 else st.out.capacity)
  if capacity > st.out.capacity then
    let string : OutString :=
      { block := MemoryCall.blocks st.log,
        text := (st.string.map OutString.text).getD [] ++ [b] }
    let freed := st.string.toList.map fun old => MemoryCall.free (some old)
    pure ({ st with
      out := { st.out with capacity := capacity, count := st.out.count + 1 },
      log := st.log ++ [MemoryCall.malloc] ++ freed }.setString (some string))
  else
    match st.string with
    | some string =>
        pure ({ st with
          out := { st.out with count := st.out.count + 1 } }.setString
            (some { string with text := string.text ++ [b] }))
    | none => Proc.undefined

/-- `if (value == NULL) value = no_value(memory)` -/
def noValue (st : FormMemory τ) : FormMemory τ :=
  match st.value with
  | some _ => st
  | none =>
      { st with
        value := some { block := MemoryCall.blocks st.log, text := [] },
        log := st.log ++ [.malloc] }

/-- `result->set(result, attribute, value); free(attribute);` -/
def store (st : FormMemory τ) : FormMemory τ :=
  { st with log := st.log ++ [.set st.attr st.value, .free st.attr] }

/-- The `switch` of `parse_query_or_form` on one byte. -/
def char (st : FormMemory τ) : Proc (FormMemory τ) :=
  if st.s = 1 then
    if st.c = chr '=' then
      if st.attr = none then pure { st with s := -st.s }
      else pure { st.newOut .value with s := 11 }
    else if st.c = chr '%' then pure { st with encoded := 0, s := 2 }
    else if st.c = chr '+' then st.put (ascii ' ')
    else st.put (intToChar st.c)
  else if st.s = 11 then
    if st.c = chr '&' ∨ st.c = chr '\n' then
      let st := st.noValue.store
      pure { ({ st with attr := none, value := none } : FormMemory τ).newOut
        .attr with s := 1 }
    else if st.c = chr '%' then pure { st with encoded := 0, s := 12 }
    else if st.c = chr '+' then st.put (ascii ' ')
    else st.put (intToChar st.c)
  else if st.s = 2 ∨ st.s = 12 then
    match hexDigit st.c with
    | some d => pure { st with encoded := intToChar d, s := st.s + 1 }
    | none => pure { st with s := -st.s }
  else if st.s = 3 ∨ st.s = 13 then
    match hexDigit st.c with
    | some d => do
        let high := intToChar (charToInt st.encoded * 16)
        let encoded := intToChar (charToInt high + d)
        let st ← { st with encoded := encoded }.put encoded
        pure { st with s := st.s - 2 }
    | none => pure { st with s := -st.s }
  else pure st

/-- One iteration of the loop of `parse_query_or_form`. -/
def step (fns : StreamFns τ) (st : FormMemory τ) :
    Proc (FormMemory τ ⊕ FormMemory τ) :=
  if st.c ≠ eof ∧ st.s > 0 then do
    let st ← st.char
    let (failed, input) := st.input.next fns
    if failed ≠ 0 then pure (.inl { st with input := input, s := -st.s })
    else pure (.inl { st with input := input, c := input.item fns })
  else pure (.inr st)

/-- The state before the first iteration. -/
def start (fns : StreamFns τ) (input : InputStream τ) : FormMemory τ :=
  ({ s := 1, attr := none, value := none, out := ⟨.attr, 0, 0⟩,
     encoded := 0, input := input, c := input.item fns, log := [] } :
    FormMemory τ).newOut .attr

def last (st : FormMemory τ) : List MemoryCall :=
  if st.s = 11 ∨ st.s = -11 then st.noValue.store.log
  else st.log ++ [.free st.attr, .free st.value]

/-- `parse_query_or_form`, and the calls it makes. -/
def parse (fns : StreamFns τ) (input : InputStream τ) :
    Proc (List MemoryCall) := do
  let st ← Proc.loop (step fns) (start fns input)
  pure st.last

open MemoryCall

def live (st : FormMemory τ) : List Nat :=
  blocksOf st.attr ++ blocksOf st.value

/-- The pointer `out` does not fill. -/
def other (st : FormMemory τ) : Option OutString :=
  match st.out.string with
  | .attr => st.value
  | .value => st.attr

/-- Every block is with one of the pointers, or was freed or stored once.  In a
name there is no value, in a value there is an attribute. -/
structure Sound (st : FormMemory τ) : Prop where
  owns : Owns st.log st.live
  never_null : NeverNull st.log
  phase : (st.s.natAbs < 10 ∧ st.value = none ∧ st.out.string = .attr) ∨
    (10 < st.s.natAbs ∧ st.attr ≠ none ∧ st.out.string = .value)

variable {st st' : FormMemory τ}

theorem live_perm (st : FormMemory τ) :
    st.live.Perm (blocksOf st.string ++ blocksOf st.other) := by
  rw [live, string, other]
  cases st.out.string with
  | attr => exact List.Perm.refl _
  | value => exact List.perm_append_comm

/-- The variables that play no part in the invariant. -/
theorem Sound.update (h : st.Sound) {n : Int} (encoded : UInt8)
    (input : InputStream τ) (c : Int)
    (hn : n.natAbs < 10 ↔ st.s.natAbs < 10)
    (hn' : 10 < n.natAbs ↔ 10 < st.s.natAbs) :
    ({ st with s := n, encoded := encoded, input := input, c := c } :
      FormMemory τ).Sound where
  owns := h.owns
  never_null := h.never_null
  phase := by
    rcases h.phase with hphase | hphase
    · exact Or.inl ⟨hn.mpr hphase.1, hphase.2⟩
    · exact Or.inr ⟨hn'.mpr hphase.1, hphase.2⟩

theorem Sound.setString (h : st.Sound) {log : List MemoryCall}
    {p : OutString} (out : StringOutput)
    (hout : out.string = st.out.string)
    (howns : Owns log (p.block :: blocksOf st.other))
    (hnever : NeverNull log) :
    (({ st with out := out, log := log } : FormMemory τ).setString
      (some p)).Sound := by
  rcases h.phase with ⟨hs, hvalue, hstring⟩ | ⟨hs, hattr, hstring⟩
  · rw [other, hstring] at howns
    rw [hstring] at hout
    simp only [FormMemory.setString, hout]
    exact ⟨howns, hnever, Or.inl ⟨hs, hvalue, hout⟩⟩
  · rw [other, hstring] at howns
    rw [hstring] at hout
    have howns : Owns log ([p.block] ++ blocksOf st.attr) := howns
    simp only [FormMemory.setString, hout]
    exact ⟨howns.perm List.perm_append_comm, hnever, Or.inr ⟨hs, hattr, hout⟩⟩

theorem setString_s (st : FormMemory τ) (p : Option OutString) :
    (st.setString p).s = st.s := by
  rw [FormMemory.setString]
  split <;> rfl

theorem Sound.put (h : st.Sound) {b : UInt8} (hput : Returns (st.put b) st') :
    st'.Sound ∧ st'.s = st.s := by
  have howns := h.owns.perm st.live_perm
  obtain ⟨needed, -, hput⟩ := returns_bind.mp hput
  obtain ⟨capacity, -, hput⟩ := returns_bind.mp hput
  split at hput
  next =>
    cases returns_pure.mp hput
    refine ⟨?_, setString_s _ _⟩
    refine h.setString (p := ⟨_, _⟩) _ rfl howns.replace ?_
    rw [List.append_assoc]
    refine h.never_null.append fun attr value hmem => ?_
    rcases List.mem_append.mp hmem with hmem | hmem
    · cases List.mem_singleton.mp hmem
    · obtain ⟨old, -, hold⟩ := List.mem_map.mp hmem
      cases hold
  next =>
    split at hput
    next string hstring =>
      cases returns_pure.mp hput
      rw [hstring] at howns
      exact ⟨h.setString (p := ⟨_, _⟩) _ rfl howns h.never_null,
        setString_s _ _⟩
    next => exact absurd hput not_returns_undefined

theorem Sound.noValue (h : st.Sound) (hs : 10 < st.s.natAbs) :
    ∃ attr value, st.noValue.attr = some attr ∧
      st.noValue.value = some value ∧
      Owns st.noValue.log [attr.block, value.block] ∧
      NeverNull st.noValue.log := by
  obtain ⟨attr, hattr⟩ : ∃ attr, st.attr = some attr := by
    rcases h.phase with ⟨hs', -⟩ | ⟨-, hattr, -⟩
    · omega
    · exact Option.ne_none_iff_exists'.mp hattr
  have howns := h.owns
  rw [live, hattr] at howns
  rw [FormMemory.noValue]
  cases hvalue : st.value with
  | some value =>
      rw [hvalue] at howns
      exact ⟨attr, value, hattr, hvalue, howns, h.never_null⟩
  | none =>
      rw [hvalue] at howns
      refine ⟨attr, _, hattr, rfl, howns.malloc.perm (List.Perm.swap _ _ _), ?_⟩
      exact h.never_null.append fun attr value hmem => by
        cases List.mem_singleton.mp hmem

/-- A pair is stored: nothing is left in the two pointers. -/
theorem Sound.store (h : st.Sound) (hs : 10 < st.s.natAbs) :
    Owns st.noValue.store.log [] ∧ NeverNull st.noValue.store.log := by
  obtain ⟨attr, value, hattr, hvalue, howns, hnever⟩ := h.noValue hs
  rw [FormMemory.store]
  simp only [hattr, hvalue]
  refine ⟨howns.store, hnever.append fun attr' value' hmem => ?_⟩
  rcases List.mem_cons.mp hmem with heq | hmem
  · cases heq
    exact ⟨Option.some_ne_none attr, Option.some_ne_none value⟩
  · cases List.mem_singleton.mp hmem

theorem Sound.negated (h : st.Sound) (input : InputStream τ) (c : Int) :
    ({ st with s := -st.s, input := input, c := c } : FormMemory τ).Sound :=
  h.update st.encoded input c (by rw [Int.natAbs_neg]) (by rw [Int.natAbs_neg])

theorem Sound.char (h : st.Sound) (hchar : Returns st.char st') :
    st'.Sound := by
  rw [FormMemory.char] at hchar
  split at hchar
  next hs =>
    split at hchar
    next =>
      split at hchar
      next =>
        cases returns_pure.mp hchar
        exact h.negated st.input st.c
      next hattr =>
        -- the value is NULL before the new stream makes it so
        cases returns_pure.mp hchar
        have hvalue : st.value = none := by
          rcases h.phase with ⟨-, hvalue, -⟩ | ⟨hs', -⟩
          · exact hvalue
          · rw [hs] at hs'
            exact absurd hs' (by decide)
        have howns := h.owns
        rw [live, hvalue] at howns
        exact ⟨howns, h.never_null,
          Or.inr ⟨(by decide : 10 < (11 : Int).natAbs), hattr, rfl⟩⟩
    next =>
      split at hchar
      next =>
        cases returns_pure.mp hchar
        exact h.update 0 st.input st.c (by omega) (by omega)
      next =>
        split at hchar
        next => exact (h.put hchar).1
        next => exact (h.put hchar).1
  next =>
    split at hchar
    next hs =>
      split at hchar
      next =>
        cases returns_pure.mp hchar
        obtain ⟨howns, hnever⟩ := h.store (by rw [hs]; decide)
        exact ⟨howns, hnever,
          Or.inl ⟨(by decide : (1 : Int).natAbs < 10), rfl, rfl⟩⟩
      next =>
        split at hchar
        next =>
          cases returns_pure.mp hchar
          exact h.update 0 st.input st.c (by omega) (by omega)
        next =>
          split at hchar
          next => exact (h.put hchar).1
          next => exact (h.put hchar).1
    next =>
      split at hchar
      next hs =>
        split at hchar
        next d hd =>
          cases returns_pure.mp hchar
          exact h.update (intToChar d) st.input st.c (by omega) (by omega)
        next =>
          cases returns_pure.mp hchar
          exact h.negated st.input st.c
      next =>
        split at hchar
        next hs =>
          split at hchar
          next d hd =>
            obtain ⟨st'', hput, hchar⟩ := returns_bind.mp hchar
            cases returns_pure.mp hchar
            have hencoded := h.update (intToChar (charToInt
              (intToChar (charToInt st.encoded * 16)) + d)) st.input st.c
              (n := st.s) Iff.rfl Iff.rfl
            obtain ⟨hsound, hsame⟩ := hencoded.put hput
            have hsame : st''.s = st.s := hsame
            exact hsound.update st''.encoded st''.input st''.c (by omega)
              (by omega)
          next =>
            cases returns_pure.mp hchar
            exact h.negated st.input st.c
        next =>
          cases returns_pure.mp hchar
          exact h

theorem Sound.step {fns : StreamFns τ} (h : st.Sound)
    (hstep : Returns (step fns st) (.inl st')) : st'.Sound := by
  rw [FormMemory.step] at hstep
  split at hstep
  next =>
    obtain ⟨st'', hchar, hstep⟩ := returns_bind.mp hstep
    have hsound := h.char hchar
    dsimp only at hstep
    split at hstep
    next =>
      cases returns_pure.mp hstep
      exact hsound.negated _ _
    next =>
      cases returns_pure.mp hstep
      exact hsound.update st''.encoded _ _ Iff.rfl Iff.rfl
  next => cases returns_pure.mp hstep

theorem start_sound (fns : StreamFns τ) (input : InputStream τ) :
    (start fns input).Sound where
  owns := owns_nil
  never_null _ _ hmem := absurd hmem List.not_mem_nil
  phase := Or.inl ⟨(by decide : (1 : Int).natAbs < 10), rfl, rfl⟩

theorem Sound.last (h : st.Sound) :
    Owns st.last [] ∧ NeverNull st.last := by
  rw [FormMemory.last]
  split
  next hs => exact h.store (by omega)
  next =>
    constructor
    · rw [List.append_cons]
      refine Owns.free (show Owns _ (_ ++ []) from ?_)
      rw [List.append_nil]
      exact h.owns.free
    · refine h.never_null.append fun attr value hmem => ?_
      rcases List.mem_cons.mp hmem with heq | hmem
      · cases heq
      · cases List.mem_singleton.mp hmem

theorem step_inr {fns : StreamFns τ} (h : Returns (step fns st) (.inr st')) :
    st' = st := by
  rw [FormMemory.step] at h
  split at h
  next =>
    obtain ⟨st'', -, h⟩ := returns_bind.mp h
    dsimp only at h
    split at h
    next => cases returns_pure.mp h
    next => cases returns_pure.mp h
  next =>
    cases returns_pure.mp h
    rfl

def setCall (hash : StringHash) : MemoryCall → StringHash
  | .set (some attr) value =>
      Dict.set stringsEqual (cString attr.text) (cString attr.text)
        (value.map fun value => cString value.text) hash
  | _ => hash

def table (log : List MemoryCall) : StringHash := log.foldl setCall []

def forget (st : FormMemory τ) : QueryState τ :=
  { result := table st.log, s := st.s, attr := st.attr.map OutString.text,
    value := st.value.map OutString.text, out := st.out.string,
    encoded := st.encoded, input := st.input, c := st.c }

theorem table_append {log more : List MemoryCall}
    (h : ∀ attr value, MemoryCall.set attr value ∉ more) :
    table (log ++ more) = table log := by
  rw [table, List.foldl_append, table]
  induction more with
  | nil => rfl
  | cons call more ih =>
      have hcall : ∀ hash, setCall hash call = hash := by
        intro hash
        cases call with
        | set attr value => exact absurd List.mem_cons_self (h attr value)
        | _ => rfl
      rw [List.foldl_cons, hcall]
      exact ih fun attr value hmem => h attr value (List.mem_cons_of_mem _ hmem)

/-- A byte more in the string of `out`, wherever the string is then. -/
theorem forget_setString {out : StringOutput} {log : List MemoryCall}
    {p : OutString} {b : UInt8} (hout : out.string = st.out.string)
    (hlog : table log = table st.log)
    (htext : p.text = (st.string.map OutString.text).getD [] ++ [b]) :
    (({ st with out := out, log := log } : FormMemory τ).setString
      (some p)).forget = st.forget.put b := by
  rw [FormMemory.string] at htext
  cases hst : st.out.string with
  | attr =>
      rw [hst] at hout htext
      simp only [FormMemory.setString, hout, forget, Option.map_some, htext,
        QueryState.put, hst, hlog]
  | value =>
      rw [hst] at hout htext
      simp only [FormMemory.setString, hout, forget, Option.map_some, htext,
        QueryState.put, hst, hlog]

theorem forget_put {b : UInt8} (h : Returns (st.put b) st') :
    st'.forget = st.forget.put b := by
  obtain ⟨needed, -, h⟩ := returns_bind.mp h
  obtain ⟨capacity, -, h⟩ := returns_bind.mp h
  split at h
  next =>
    cases returns_pure.mp h
    refine forget_setString (p := ⟨_, _⟩) rfl ?_ rfl
    rw [List.append_assoc]
    refine table_append fun attr value hmem => ?_
    rcases List.mem_append.mp hmem with hmem | hmem
    · cases List.mem_singleton.mp hmem
    · obtain ⟨old, -, hold⟩ := List.mem_map.mp hmem
      cases hold
  next =>
    split at h
    next string hstring =>
      cases returns_pure.mp h
      refine forget_setString (p := ⟨_, _⟩) rfl rfl ?_
      rw [hstring]
      rfl
    next => exact absurd h not_returns_undefined

theorem forget_noValue (st : FormMemory τ) :
    st.noValue.forget = st.forget.noValue := by
  rw [FormMemory.noValue]
  cases hvalue : st.value with
  | some value =>
      rw [QueryState.noValue, forget, hvalue]
      rfl
  | none =>
      have htable : table (st.log ++ [.malloc]) = table st.log :=
        table_append fun attr value hmem => by
          cases List.mem_singleton.mp hmem
      simp only [QueryState.noValue, forget, hvalue, htable, Option.map_some,
        Option.map_none, Option.getD_none]

theorem Sound.forget_store (h : st.Sound) (hs : 10 < st.s.natAbs) :
    st.noValue.forget.result.set st.noValue.forget.attr
      st.noValue.forget.value = pure (table st.noValue.store.log) := by
  obtain ⟨attr, value, hattr, hvalue, -, -⟩ := h.noValue hs
  have hlog : table st.noValue.store.log = Dict.set stringsEqual
      (cString attr.text) (cString attr.text) (some (cString value.text))
      (table st.noValue.log) := by
    simp only [FormMemory.store, table, List.foldl_append, hattr, hvalue]
    rfl
  rw [forget, hattr, hvalue, hlog]
  rfl

theorem returns_forget_put {b : UInt8} (h : Returns (st.put b) st') :
    Returns (pure (st.forget.put b) : Proc (QueryState τ)) st'.forget := by
  rw [forget_put h]
  exact returns_pure_self _

theorem returns_forget_low {b : UInt8}
    (h : Returns (({ st with encoded := b } : FormMemory τ).put b) st') :
    Returns (pure (({ st.forget with encoded := b, s := st.s - 2 } :
        QueryState τ).put b) : Proc (QueryState τ))
      ({ st' with s := st'.s - 2 } : FormMemory τ).forget := by
  have hforget : st'.forget =
      ({ st.forget with encoded := b } : QueryState τ).put b := forget_put h
  rw [returns_pure]
  change _ = { st'.forget with s := st'.forget.s - 2 }
  rw [hforget]
  cases hout : st.out.string with
  | attr => simp only [QueryState.put, forget, hout]
  | value => simp only [QueryState.put, forget, hout]

/-- The calls change nothing in how a byte is handled. -/
theorem Sound.forget_char (h : st.Sound) (hchar : Returns st.char st') :
    Returns (queryChar st.forget) st'.forget := by
  have hattr : st.forget.attr = none ↔ st.attr = none := Option.map_eq_none_iff
  have hs' : st.forget.s = st.s := rfl
  have hc' : st.forget.c = st.c := rfl
  rw [queryChar]
  simp only [hs', hc']
  rw [FormMemory.char] at hchar
  split at hchar
  next hs =>
    rw [if_pos hs]
    split at hchar
    next hc =>
      rw [if_pos hc]
      split at hchar
      next hnone =>
        rw [if_pos (hattr.mpr hnone)]
        cases returns_pure.mp hchar
        exact returns_pure_self _
      next hsome =>
        rw [if_neg (hattr.not.mpr hsome)]
        cases returns_pure.mp hchar
        exact returns_pure_self _
    next hc =>
      rw [if_neg hc]
      split at hchar
      next hpercent =>
        rw [if_pos hpercent]
        cases returns_pure.mp hchar
        exact returns_pure_self _
      next hpercent =>
        rw [if_neg hpercent]
        split at hchar
        next hplus =>
          rw [if_pos hplus]
          exact returns_forget_put hchar
        next hplus =>
          rw [if_neg hplus]
          exact returns_forget_put hchar
  next hs =>
    rw [if_neg hs]
    split at hchar
    next hs =>
      rw [if_pos hs]
      split at hchar
      next hend =>
        rw [if_pos hend, ← forget_noValue,
          h.forget_store (by rw [hs]; decide)]
        cases returns_pure.mp hchar
        exact (returns_pure_self _).bind (returns_pure_self _)
      next hend =>
        rw [if_neg hend]
        split at hchar
        next hpercent =>
          rw [if_pos hpercent]
          cases returns_pure.mp hchar
          exact returns_pure_self _
        next hpercent =>
          rw [if_neg hpercent]
          split at hchar
          next hplus =>
            rw [if_pos hplus]
            exact returns_forget_put hchar
          next hplus =>
            rw [if_neg hplus]
            exact returns_forget_put hchar
    next hs =>
      rw [if_neg hs]
      split at hchar
      next hs =>
        rw [if_pos hs]
        cases hdigit : hexDigit st.c with
        | some d =>
            rw [hdigit] at hchar
            cases returns_pure.mp hchar
            exact returns_pure_self _
        | none =>
            rw [hdigit] at hchar
            cases returns_pure.mp hchar
            exact returns_pure_self _
      next hs =>
        rw [if_neg hs]
        split at hchar
        next hs =>
          rw [if_pos hs]
          cases hdigit : hexDigit st.c with
          | some d =>
              rw [hdigit] at hchar
              obtain ⟨st'', hput, hchar⟩ := returns_bind.mp hchar
              cases returns_pure.mp hchar
              exact returns_forget_low hput
          | none =>
              rw [hdigit] at hchar
              cases returns_pure.mp hchar
              exact returns_pure_self _
        next hs =>
          rw [if_neg hs]
          cases returns_pure.mp hchar
          exact returns_pure_self _

theorem Sound.forget_step {fns : StreamFns τ} (h : st.Sound)
    (hstep : Returns (FormMemory.step fns st) (.inl st')) :
    Returns (queryStep fns st.forget) (.inl st'.forget) := by
  rw [FormMemory.step] at hstep
  rw [queryStep]
  split at hstep
  next hlive =>
    obtain ⟨st'', hchar, hstep⟩ := returns_bind.mp hstep
    rw [if_pos (show st.forget.c ≠ eof ∧ st.forget.s > 0 from hlive)]
    refine (h.forget_char hchar).bind ?_
    have hinput : st''.forget.input = st''.input := rfl
    simp only [hinput]
    dsimp only at hstep
    split at hstep
    next hfailed =>
      rw [if_pos hfailed]
      cases returns_pure.mp hstep
      exact returns_pure_self _
    next hfailed =>
      rw [if_neg hfailed]
      cases returns_pure.mp hstep
      exact returns_pure_self _
  next => cases returns_pure.mp hstep

theorem forget_exit {fns : StreamFns τ}
    (h : Returns (step fns st) (.inr st')) :
    Returns (queryStep fns st.forget) (.inr st'.forget) := by
  have hsame := step_inr h
  rw [FormMemory.step] at h
  split at h
  next =>
    obtain ⟨st'', -, h⟩ := returns_bind.mp h
    dsimp only at h
    split at h
    next => cases returns_pure.mp h
    next => cases returns_pure.mp h
  next hlive =>
    rw [queryStep,
      if_neg (show ¬ (st.forget.c ≠ eof ∧ st.forget.s > 0) from hlive), hsame]
    exact returns_pure_self _

theorem Sound.forget_loop {fns : StreamFns τ} (h : st.Sound)
    (hloop : Returns (Proc.loop (FormMemory.step fns) st) st') :
    Returns (Proc.loop (queryStep fns) st.forget) st'.forget := by
  refine Returns.loop_induction
    (P := fun st st' => st.Sound →
      Returns (Proc.loop (queryStep fns) st.forget) st'.forget) ?_ ?_ hloop h
  · exact fun st st' hexit _ => (forget_exit hexit).loop_exit
  · intro st next st' hstep _ ih h
    exact (h.forget_step hstep).loop_next.mpr (ih (h.step hstep))

theorem Sound.forget_last (h : st.Sound) :
    Returns st.forget.last (table st.last) := by
  rw [QueryState.last, FormMemory.last]
  change Returns (if st.s = 11 ∨ st.s = -11 then _ else _) _
  split
  next hs =>
    rw [← forget_noValue, h.forget_store (by omega)]
    exact returns_pure_self _
  next =>
    have htable : table (st.log ++ [.free st.attr, .free st.value]) =
        table st.log := by
      refine table_append fun attr value hmem => ?_
      rcases List.mem_cons.mp hmem with heq | hmem
      · cases heq
      · cases List.mem_singleton.mp hmem
    rw [htable]
    exact returns_pure_self _

/-- In every state of the loop and at the end, no NULL was passed to `set`; at
the end, every buffer was freed or stored exactly once, and the calls of `set`
make up the table that is returned. -/
theorem parse_stores (fns : StreamFns τ) (input : InputStream τ) :
    (∀ st, Reaches (step fns) (start fns input) st → NeverNull st.log) ∧
      ∀ log, Returns (parse fns input) log → NeverNull log ∧
        (∀ block < blocks log, ended log block = 1) ∧
        Returns (parseQueryOrForm fns input) (table log) := by
  have hnext : ∀ st st' : FormMemory τ, st.Sound →
      Returns (step fns st) (.inl st') → st'.Sound :=
    fun _ _ h hstep => h.step hstep
  have hstart := start_sound fns input
  refine ⟨fun st hreach => (hreach.invariant hnext hstart).never_null,
    fun log hlog => ?_⟩
  obtain ⟨st, hloop, hlast⟩ := returns_bind.mp hlog
  cases returns_pure.mp hlast
  have hsound : st.Sound := hloop.loop_invariant hnext
    (fun _ _ h hexit => step_inr hexit ▸ h) hstart
  obtain ⟨howns, hnever⟩ := hsound.last
  refine ⟨hnever, fun block hlt =>
    howns.rest_ended block List.not_mem_nil hlt, ?_⟩
  exact (hstart.forget_loop hloop).bind hsound.forget_last

example : Returns
    (parse noStreams (newInputStreamFromString [97, 61, 49]))
    [.malloc, .malloc, .set (some ⟨0, [97]⟩) (some ⟨1, [49]⟩),
      .free (some ⟨0, [97]⟩)] := ⟨5, rfl⟩

end FormMemory

end Libcad
