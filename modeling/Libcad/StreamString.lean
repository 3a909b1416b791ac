/-
The output stream over a string: `vput` counts the NUL when it looks for room
but not when it counts what it wrote, so every call writes over the NUL of the
one before.
-/
import Libcad.Block
import Libcad.StreamOutput

namespace Libcad

open Proc

/-- `struct cad_output_stream_string`; `string` is the target, `none` is
NULL. -/
structure OutputStreamString where
  string : Option Block
  capacity : Nat
  count : Nat

/-- `new_cad_output_stream_from_string` -/
def newOutputStreamFromString : OutputStreamString :=
  { string := none, capacity := 0, count := 0 }

namespace OutputStreamString

/-- `while (c + this->count > new_capacity) new_capacity *= 2`, one round -/
def growStep (c : Int) (count newCapacity : Nat) : Proc (Nat ⊕ Nat) := do
  let needed ← intChecked (c + count)
  if (newCapacity : Int) < needed then do
    let newCapacity ← intMul newCapacity 2
    pure (.inl newCapacity)
  else pure (.inr newCapacity)

/-- The new string: `malloc`, with what it finds there, and `strcpy`. -/
def enlarge (fresh : Nat → UInt8) (newCapacity : Nat) (this : OutputStreamString) :
    Proc OutputStreamString :=
  match this.string with
  | none =>
      pure { this with
        string := some (Block.null.malloc newCapacity fresh),
        capacity := newCapacity }
  | some string =>
      match string.string with
      | none => Proc.undefined
      | some text =>
          pure { this with
            string :=
              some ((string.malloc newCapacity fresh).store 0 (text ++ [0])),
            capacity := newCapacity }

/-- `vsprintf` of a text; what is longer than an `int` has no meaning. -/
def vsprintf (string : Option Block) (start : Nat) (text : Bytes) :
    Proc (Nat × Block) :=
  match string with
  | none => Proc.undefined
  | some string =>
      if text.length ≤ intMax then
        pure (text.length, string.store start (text ++ [0]))
      else Proc.undefined

/-- `vput` of a text; `fresh` is what `malloc` finds in a block of a size. -/
def vput (fresh : Nat → Nat → UInt8) (text : Bytes) (this : OutputStreamString) :
    Proc (Nat × OutputStreamString) := do
  let c ← intChecked (printedLength text + 1)
  let first := if this.capacity = 0 then 128 else this.capacity
  let newCapacity ← Proc.loop (growStep c this.count) first
  let this ← (
    if this.capacity < newCapacity then
      this.enlarge (fresh newCapacity) newCapacity
    else pure this : Proc OutputStreamString)
  let (result, string) ← vsprintf this.string this.count text
  pure (result,
    { this with string := some string, count := this.count + result })

/-- `put` of a text -/
def put (fresh : Nat → Nat → UInt8) (text : Bytes) (this : OutputStreamString) :
    Proc (Nat × OutputStreamString) :=
  vput fresh text this

end OutputStreamString

/-- A call of the stream, with the text its format and arguments come to. -/
inductive OutputCall
  | put (text : Bytes)
  | vput (text : Bytes)
deriving Repr, DecidableEq

namespace OutputStreamString

def textOf : OutputCall → Bytes
  | .put text | .vput text => text

def step (fresh : Nat → Nat → UInt8) (this : OutputStreamString) :
    OutputCall → Proc (Nat × OutputStreamString)
  | .put text => this.put fresh text
  | .vput text => this.vput fresh text

/-- A sequence of calls: what each of them returned, and the stream after
it. -/
def run (fresh : Nat → Nat → UInt8) :
    List OutputCall → OutputStreamString → Proc (List (Nat × OutputStreamString))
  | [], _ => pure []
  | call :: calls, this => do
      let (result, this) ← this.step fresh call
      let rest ← run fresh calls this
      pure ((result, this) :: rest)

/-- The string is the text and a NUL, in a block of the capacity, and all that
was ever written was inside the block. -/
structure Holds (this : OutputStreamString) (text : Bytes) : Prop where
  string : ∃ block, this.string = some block ∧ block.string = some text ∧
    block.size = this.capacity ∧ ∀ access ∈ block.accesses, access.Within

/-- Every call returns the length of its text, and appends it. -/
inductive Appends : Bytes → List OutputCall → List (Nat × OutputStreamString) → Prop
  | nil {before : Bytes} : Appends before [] []
  | cons {before : Bytes} {call calls} {this : OutputStreamString} {rest} :
      this.Holds (before ++ textOf call) →
      Appends (before ++ textOf call) calls rest →
      Appends before (call :: calls) (((textOf call).length, this) :: rest)

/-- What the stream keeps: nothing yet, or a text and its NUL, which the next
text is written over. -/
inductive Kept : OutputStreamString → Bytes → Prop
  | new : Kept newOutputStreamFromString []
  | filled {block : Block} {text : Bytes} : DoublesUp block.size →
      block.Spells text → (∀ access ∈ block.accesses, access.Within) →
      Kept ⟨some block, block.size, text.length⟩ text

variable {fresh : Nat → Nat → UInt8} {this : OutputStreamString} {text more : Bytes}

theorem growStep_returns {c : Int} {count capacity : Nat}
    (hneeded : 0 ≤ c ∧ c + count ≤ 1073741824) {o : Nat ⊕ Nat}
    (h : Returns (if (capacity : Int) < c + count then do
        let newCapacity ← intMul capacity 2
        pure (.inl newCapacity)
      else pure (.inr capacity)) o) :
    Returns (growStep c count capacity) o := by
  have hint : Returns (intChecked (c + count)) (c + count) := by
    rw [intChecked, if_pos (by omega)]
    exact returns_pure_self _
  exact hint.bind h

theorem growLoop_returns {c : Int} {count capacity : Nat}
    (hneeded : 0 ≤ c ∧ c + count ≤ 1073741824) (hc : DoublesUp capacity) :
    ∃ capacity', Returns (Proc.loop (growStep c count) capacity) capacity' ∧
      DoublesUp capacity' ∧ capacity ≤ capacity' ∧ c + count ≤ capacity' := by
  have hloop := @Proc.loop_returns _ _ (growStep c count) capacity
    (fun n => DoublesUp n ∧ capacity ≤ n)
    (fun n => DoublesUp n ∧ capacity ≤ n ∧ c + count ≤ n)
    (fun n => 1073741824 - n) ?_ ⟨hc, Nat.le_refl _⟩
  · exact hloop
  · rintro n ⟨hn, hle⟩
    by_cases hsmall : (n : Int) < c + count
    · have hdouble := hn.double (by omega)
      have hmax : n * 2 ≤ intMax := by
        have hbound := hdouble.le
        rw [intMax]
        omega
      have hpos := hn.pos
      refine Or.inl ⟨n * 2, growStep_returns hneeded ?_,
        ⟨hdouble, by omega⟩, by omega⟩
      rw [if_pos hsmall]
      exact (intMul_returns hmax).bind (returns_pure_self _)
    · refine Or.inr ⟨n, growStep_returns hneeded ?_, hn, hle, by omega⟩
      rw [if_neg hsmall]
      exact returns_pure_self _

theorem Kept.store {block : Block} (hsize : DoublesUp block.size)
    (htake : block.take text.length = text)
    (hfits : text.length + more.length < block.size)
    (hinside : ∀ access ∈ block.accesses, access.Within) :
    Kept ⟨some (block.store text.length (more ++ [0])), block.size,
      text.length + more.length⟩ (text ++ more) := by
  rw [← List.length_append]
  refine .filled hsize (Block.Spells.append htake hfits) ?_
  intro access haccess
  rcases List.mem_append.mp haccess with haccess | haccess
  · exact hinside access haccess
  · rw [List.mem_singleton.mp haccess, Access.Within, List.length_append]
    exact hfits

theorem vsprintf_returns {block : Block} {start : Nat}
    (hlength : text.length < 1073741824) :
    Returns (vsprintf (some block) start text)
      (text.length, block.store start (text ++ [0])) := by
  rw [vsprintf, if_pos (by rw [intMax]; omega)]
  exact returns_pure_self _

theorem vput_of_room {capacity : Nat} {next : OutputStreamString} {block : Block}
    (hlength : more.length < 1073741824)
    (hloop : Returns (Proc.loop (growStep (more.length + 1) this.count)
      (if this.capacity = 0 then 128 else this.capacity)) capacity)
    (hnext : Returns (if this.capacity < capacity then
        this.enlarge (fresh capacity) capacity
      else pure this : Proc OutputStreamString) next)
    (hblock : next.string = some block) :
    Returns (vput fresh more this) (more.length,
      { next with string := some (block.store next.count (more ++ [0])),
                  count := next.count + more.length }) := by
  have hprinted : printedLength more = more.length :=
    if_pos (by rw [intMax]; omega)
  have hint : Returns (intChecked (printedLength more + 1))
      (more.length + 1) := by
    rw [hprinted, intChecked, if_pos (by omega)]
    exact returns_pure_self _
  have hprint : Returns (vsprintf next.string next.count more)
      (more.length, block.store next.count (more ++ [0])) := by
    rw [hblock]
    exact vsprintf_returns hlength
  exact hint.bind (hloop.bind (hnext.bind (hprint.bind (returns_pure_self _))))

/-- A call returns the length of its text and appends it. -/
theorem Kept.vput (h : Kept this text) (hnul : 0 ∉ text)
    (hlength : text.length + more.length < 1073741824) :
    ∃ next, Returns (vput fresh more this) (more.length, next) ∧
      Kept next (text ++ more) := by
  have hmore : more.length < 1073741824 := by omega
  have hneeded : (0 : Int) ≤ (more.length : Int) + 1 ∧
      ((more.length : Int) + 1) + text.length ≤ 1073741824 := by omega
  cases h with
  | new =>
      have hfirst : DoublesUp 128 := ⟨23, by decide⟩
      obtain ⟨capacity, hloop, hdoubles, hle, hroom⟩ :=
        growLoop_returns hneeded hfirst
      let block := Block.null.malloc capacity (fresh capacity)
      have hnext : Returns (if (0 : Nat) < capacity then
            newOutputStreamFromString.enlarge (fresh capacity) capacity
          else pure newOutputStreamFromString : Proc OutputStreamString)
          ⟨some block, capacity, 0⟩ := by
        rw [if_pos (by omega)]
        exact returns_pure_self _
      refine ⟨_, vput_of_room hmore hloop hnext rfl, ?_⟩
      have hfits : ([] : Bytes).length + more.length < block.size := by
        change 0 + more.length < capacity
        have hroom' : (more.length : Int) + 1 + 0 ≤ capacity := hroom
        omega
      exact @Kept.store [] more block hdoubles rfl hfits
        fun _ h => absurd h List.not_mem_nil
  | @filled block _ hdoubles hspells hinside =>
      obtain ⟨capacity, hloop, hdoubles', hle, hroom⟩ :=
        growLoop_returns hneeded hdoubles
      have hfits : text.length + more.length < capacity := by omega
      have hpos := hdoubles.pos
      have hloop' : Returns (Proc.loop (growStep (more.length + 1) text.length)
          (if block.size = 0 then 128 else block.size)) capacity := by
        rw [if_neg (by omega)]
        exact hloop
      by_cases hgrow : block.size < capacity
      · let copied := (block.malloc capacity (fresh capacity)).store 0
          (text ++ [0])
        have hcopied : copied.Spells ([] ++ text) :=
          @Block.Spells.append _ [] text rfl
            (show 0 + text.length < capacity by omega)
        have hinside' : ∀ access ∈ copied.accesses, access.Within := by
          intro access haccess
          rcases List.mem_append.mp haccess with haccess | haccess
          · exact hinside access haccess
          · rw [List.mem_singleton.mp haccess, Access.Within,
              List.length_append]
            change 0 + (text.length + 1) ≤ capacity
            omega
        have hnext : Returns (if block.size < capacity then
              enlarge (fresh capacity) capacity
                ⟨some block, block.size, text.length⟩
            else pure ⟨some block, block.size, text.length⟩ :
              Proc OutputStreamString)
            ⟨some copied, capacity, text.length⟩ := by
          rw [if_pos hgrow, enlarge]
          dsimp only
          rw [hspells.string hnul]
          exact returns_pure_self _
        exact ⟨_, vput_of_room hmore hloop' hnext rfl,
          @Kept.store text more copied hdoubles' hcopied.take_length hfits
            hinside'⟩
      · have hsame : capacity = block.size := by omega
        subst hsame
        have hnext : Returns (if block.size < block.size then
              enlarge (fresh block.size) block.size
                ⟨some block, block.size, text.length⟩
            else pure ⟨some block, block.size, text.length⟩ :
              Proc OutputStreamString)
            ⟨some block, block.size, text.length⟩ := by
          rw [if_neg hgrow]
          exact returns_pure_self _
        exact ⟨_, vput_of_room hmore hloop' hnext rfl,
          Kept.store hdoubles hspells.take_length hfits hinside⟩

theorem growLoop_room {c : Int} {count capacity capacity' : Nat}
    (hc : DoublesUp capacity)
    (h : Returns (Proc.loop (growStep c count) capacity) capacity') :
    c + count ≤ 1073741824 := by
  refine Returns.loop_invariant (I := DoublesUp)
    (Q := fun _ => c + count ≤ 1073741824) ?_ ?_ hc h
  · intro n n' hn hstep
    obtain ⟨needed, -, hstep⟩ := returns_bind.mp hstep
    split at hstep
    next =>
      obtain ⟨doubled, hdoubled, hstep⟩ := returns_bind.mp hstep
      cases returns_pure.mp hstep
      rw [intMul] at hdoubled
      split at hdoubled
      next hle =>
        cases returns_pure.mp hdoubled
        rw [intMax] at hle
        exact hn.double (by omega)
      next => exact absurd hdoubled not_returns_undefined
    next => cases returns_pure.mp hstep
  · intro n n' hn hstep
    obtain ⟨needed, hneeded, hstep⟩ := returns_bind.mp hstep
    have hexact := intChecked_returns hneeded
    split at hstep
    next =>
      obtain ⟨doubled, -, hstep⟩ := returns_bind.mp hstep
      cases returns_pure.mp hstep
    next hroom =>
      have hle := hn.le
      omega

/-- The texts whose lengths the `int`s can count are those whose total is below
2^30. -/
theorem Kept.vput_in_range (h : Kept this text) (hnul : 0 ∉ text)
    (hprintable : more.length ≤ intMax) :
    (∃ result, Returns (OutputStreamString.vput fresh more this) result) ↔
      text.length + more.length < 1073741824 := by
  constructor
  · rintro ⟨⟨result, next⟩, hnext⟩
    obtain ⟨c, hc, hnext⟩ := returns_bind.mp hnext
    obtain ⟨capacity, hloop, -⟩ := returns_bind.mp hnext
    have hexact := intChecked_returns hc
    rw [printedLength, if_pos hprintable] at hexact
    have hroom : c + text.length ≤ 1073741824 := by
      cases h with
      | new => exact growLoop_room ⟨23, by decide⟩ hloop
      | filled hdoubles hspells hinside =>
          have hpos := hdoubles.pos
          dsimp only at hloop
          rw [if_neg (by omega)] at hloop
          exact growLoop_room hdoubles hloop
    omega
  · intro hlength
    obtain ⟨next, hnext, -⟩ := h.vput hnul hlength
    exact ⟨_, hnext⟩

theorem Kept.holds (h : Kept this text) (hnul : 0 ∉ text)
    (hsome : this.string ≠ none) : this.Holds text := by
  cases h with
  | new => exact absurd rfl hsome
  | @filled block _ hdoubles hspells hinside =>
      exact ⟨block, rfl, hspells.string hnul, rfl, hinside⟩

theorem vput_string {result : Nat} {next : OutputStreamString}
    (h : Returns (vput fresh more this) (result, next)) :
    next.string ≠ none := by
  obtain ⟨c, -, h⟩ := returns_bind.mp h
  obtain ⟨capacity, -, h⟩ := returns_bind.mp h
  obtain ⟨this', -, h⟩ := returns_bind.mp h
  obtain ⟨⟨printed, block⟩, -, h⟩ := returns_bind.mp h
  cases returns_pure.mp h
  exact Option.some_ne_none block

theorem Kept.step (h : Kept this text) (hnul : 0 ∉ text) {call : OutputCall}
    (hlength : text.length + (textOf call).length < 1073741824) :
    ∃ next, Returns (this.step fresh call) ((textOf call).length, next) ∧
      Kept next (text ++ textOf call) ∧ next.string ≠ none := by
  obtain ⟨next, hnext, hkept⟩ :=
    @Kept.vput fresh this text (textOf call) h hnul hlength
  have hstep : Returns (this.step fresh call)
      ((textOf call).length, next) := by
    cases call with
    | put text => exact hnext
    | vput text => exact hnext
  exact ⟨next, hstep, hkept, vput_string hnext⟩

/-- A run of calls from a stream that keeps a text. -/
theorem Kept.run {calls : List OutputCall}
    (hnul : ∀ call ∈ calls, 0 ∉ textOf call) :
    ∀ {this text}, Kept this text → 0 ∉ text →
      text.length + (calls.flatMap textOf).length < 1073741824 →
      ∃ results, Returns (run fresh calls this) results ∧
        Appends text calls results := by
  induction calls with
  | nil => exact fun _ _ _ => ⟨[], returns_pure_self _, .nil⟩
  | cons call calls ih =>
      intro this text hkept htext hlength
      rw [List.flatMap_cons, List.length_append] at hlength
      obtain ⟨hcall, hcalls⟩ := List.forall_mem_cons.mp hnul
      obtain ⟨next, hstep, hnext, hsome⟩ :=
        @Kept.step fresh this text hkept htext call (by omega)
      have htext' : 0 ∉ text ++ textOf call := by
        rw [List.mem_append]
        exact not_or.mpr ⟨htext, hcall⟩
      obtain ⟨rest, hrest, hall⟩ := ih hcalls hnext htext' (by
        rw [List.length_append]
        omega)
      exact ⟨_, hstep.bind (hrest.bind (returns_pure_self _)),
        .cons (hnext.holds htext' hsome) hall⟩

end OutputStreamString

open OutputStreamString

/-- The target of a string output stream is the concatenation of all that was
put, as long as the `int`s can count it: a buffer of 2^30 bytes is not
doubled. -/
theorem outputStream_appends (fresh : Nat → Nat → UInt8)
    {calls : List OutputCall} (hnul : ∀ call ∈ calls, 0 ∉ textOf call)
    (hlength : (calls.flatMap textOf).length < 1073741824) :
    ∃ results, Returns (run fresh calls newOutputStreamFromString) results ∧
      Appends [] calls results := by
  refine Kept.run hnul .new List.not_mem_nil ?_
  rw [List.length_nil, Nat.zero_add]
  exact hlength

/-- An output of 127 bytes fills the first buffer, and the next one needs a
larger one. -/
theorem outputStream_appends_filled :
    ∃ results, Returns (run (fun _ _ => 7)
        [.put (List.replicate 127 65), .vput [], .put [66]]
        newOutputStreamFromString) results ∧
      Appends [] [.put (List.replicate 127 65), .vput [], .put [66]] results :=
  outputStream_appends _ (by simp [textOf]) (by simp [textOf])

end Libcad
