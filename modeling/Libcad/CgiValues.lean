/-
The two passes over the value of a cookie.  The first counts the bytes that the
second stores in the block; where the count is an `int`, every byte and the NUL
after them are stored inside the block.
-/
import Libcad.BlockScan
import Libcad.CgiCookiesRead
import Libcad.CgiSegments
import Libcad.Machine

namespace Libcad

open Proc

/-- A block and the place in it that `*r++` writes to. -/
structure BlockWriter where
  r : Nat
  block : Block

/-- `*r++ = c` -/
def BlockWriter.put (this : BlockWriter) (c : UInt8) : BlockWriter :=
  ⟨this.r + 1, this.block.store this.r [c]⟩

/-- `*r++ = c` for each of the bytes -/
def BlockWriter.puts (this : BlockWriter) (text : Bytes) : BlockWriter :=
  text.foldl BlockWriter.put this

/-- `malloc`, and the beginning of the new block. -/
def BlockWriter.new (size : Nat) (fresh : Nat → UInt8) : BlockWriter :=
  ⟨0, Block.null.malloc size fresh⟩

/-- What two passes come to: what the first one counted, how many bytes the
second one stored before the NUL, and the block it stored them in. -/
structure TwoPasses where
  counted : Nat
  stored : Nat
  block : Block

/-- `*r = 0`, the end of the second pass. -/
def BlockWriter.finish (this : BlockWriter) (counted : Nat) : TwoPasses :=
  ⟨counted, this.r, this.block.store this.r [0]⟩

/-- Every byte is stored inside the block, the NUL after the others too. -/
structure TwoPasses.Inside (this : TwoPasses) : Prop where
  stored_lt : this.stored < this.block.size
  accesses : ∀ access ∈ this.block.accesses, access.Within

/-- The body of the first loop of `parse_cookie_value`: the count, and the
place of `c` behind `start`. -/
def countValueStep (text : Bytes) (s : Nat × Nat) :
    Proc ((Nat × Nat) ⊕ Nat) :=
  let (n, c) := s
  match text[c]? with
  | none => pure (.inr n)
  | some b => do
      let c := if b = ascii '%' then c + 2 else c
      let n ← intAdd n 1
      pure (.inl (n, c + 1))

/-- The first loop of `parse_cookie_value`. -/
def countValue (text : Bytes) : Proc Nat :=
  Proc.loop (countValueStep text) (0, 0)

/-- The variables of the second loop of `parse_cookie_value`. -/
structure ValueWriter where
  s : Nat
  d : Int
  out : BlockWriter

/-- The body of the second loop of `parse_cookie_value`. -/
def storeValueChar (st : ValueWriter) (c : UInt8) : ValueWriter :=
  match st.s with
  | 0 =>
      if c = ascii '%' then { st with s := 1 }
      else { st with out := st.out.put c }
  | 1 => { st with d := hex c, s := 2 }
  | _ =>
      let d := st.d * 16 + hex c
      { d := d, out := st.out.put (intToChar d), s := 0 }

/-- `parse_cookie_value` on the bytes between `start` and `end`; `d` and the
new block hold whatever they hold. -/
def parseCookieValuePasses (d : Int) (fresh : Nat → UInt8) (text : Bytes) :
    Proc TwoPasses := do
  let n ← countValue text
  let size ← intAdd n 1
  let st := text.foldl storeValueChar ⟨0, d, BlockWriter.new size fresh⟩
  pure (st.out.finish n)

/-- The body of the first loop of `encode_value`. -/
def countEncodedChar (count : Nat) (c : UInt8) : Proc Nat :=
  if c = ascii '%' ∨ c = ascii '=' ∨ c = ascii ';' then intAdd count 3
  else intAdd count 1

/-- `encode_value` on a string. -/
def encodeValuePasses (fresh : Nat → UInt8) (value : Bytes) : Proc TwoPasses := do
  let count ← (cString value).foldlM countEncodedChar 1
  let v := (cString value).foldl (fun v c => v.puts (encodeByte c))
    (BlockWriter.new count fresh)
  pure (v.finish count)

/-- A piece of an encoded value: a byte, an escape, or an escape that is cut
off, with what is left of it after its `%`. -/
inductive Piece
  | byte (c : UInt8)
  | escape (high low : UInt8)
  | cut (rest : Bytes)
deriving Repr, DecidableEq

def Piece.text : Piece → Bytes
  | .byte c => [c]
  | .escape high low => [ascii '%', high, low]
  | .cut rest => ascii '%' :: rest

def Piece.value : Piece → Bytes
  | .byte c => [c]
  | .escape high low => [intToChar (hex high * 16 + hex low)]
  | .cut _ => []

def pieces : Bytes → List Piece
  | [] => []
  | c :: rest =>
      if c = ascii '%' then
        match rest with
        | high :: low :: rest => .escape high low :: pieces rest
        | rest => [.cut rest]
      else .byte c :: pieces rest

/-- The last escape of the value is complete, if there is one. -/
def EscapesComplete (text : Bytes) : Prop :=
  ∀ rest, Piece.cut rest ∉ pieces text

section

variable {text rest : Bytes} {c : UInt8}

theorem pieces_byte (hc : c ≠ ascii '%') :
    pieces (c :: rest) = .byte c :: pieces rest := by
  rw [pieces.eq_def]
  simp only [hc, ↓reduceIte]

theorem pieces_escape (high low : UInt8) :
    pieces (ascii '%' :: high :: low :: rest) =
      .escape high low :: pieces rest := by
  rw [pieces.eq_def]
  simp only [↓reduceIte]

theorem length_of_cut
    (hnot : ∀ high low more, rest = high :: low :: more → False) :
    rest.length < 2 := by
  rcases rest with _ | ⟨a, _ | ⟨b, rest⟩⟩
  · exact Nat.zero_lt_two
  · exact Nat.one_lt_two
  · exact absurd rfl (hnot a b rest)

theorem pieces_cut (hcut : rest.length < 2) :
    pieces (ascii '%' :: rest) = [.cut rest] := by
  rw [pieces.eq_def]
  rcases rest with _ | ⟨a, _ | ⟨b, rest⟩⟩
  · rfl
  · rfl
  · exact absurd hcut (Nat.not_lt.mpr (Nat.le_add_left 2 _))

theorem pieces_text (text : Bytes) :
    (pieces text).flatMap Piece.text = text := by
  induction text using pieces.induct with
  | case1 => rfl
  | case2 high low rest ih =>
      rw [pieces_escape, List.flatMap_cons, ih]
      rfl
  | case3 rest hnot =>
      rw [pieces_cut (length_of_cut hnot), List.flatMap_singleton]
      rfl
  | case4 c rest hc ih =>
      rw [pieces_byte hc, List.flatMap_cons, ih]
      rfl

theorem pieces_value (text : Bytes) :
    (pieces text).flatMap Piece.value = decoded text := by
  induction text using pieces.induct with
  | case1 => rfl
  | case2 high low rest ih =>
      rw [pieces_escape, List.flatMap_cons, ih]
      simp [decoded, Piece.value]
  | case3 rest hnot =>
      rw [pieces_cut (length_of_cut hnot), List.flatMap_singleton,
        decoded.eq_def]
      rcases rest with _ | ⟨a, _ | ⟨b, rest⟩⟩
      · rfl
      · rfl
      · exact absurd rfl (hnot a b rest)
  | case4 c rest hc ih =>
      rw [pieces_byte hc, List.flatMap_cons, ih, decoded_cons hc]
      rfl

theorem Piece.length_value (piece : Piece) :
    piece.value.length ≤ 1 ∧
      (piece.value.length = 1 ↔ ∀ rest, piece ≠ .cut rest) := by
  cases piece with
  | byte c | escape high low =>
      exact ⟨Nat.le_refl _, fun _ => nofun, fun _ => rfl⟩
  | cut rest =>
      exact ⟨Nat.zero_le _, nofun, fun h => absurd rfl (h rest)⟩

/-- Where no escape is cut off, and only there, a value stands for as many
bytes as it has pieces. -/
theorem length_values (list : List Piece) :
    (list.flatMap Piece.value).length ≤ list.length ∧
      ((list.flatMap Piece.value).length = list.length ↔
        ∀ rest, Piece.cut rest ∉ list) := by
  induction list with
  | nil => exact ⟨Nat.le_refl _, fun _ _ => List.not_mem_nil, fun _ => rfl⟩
  | cons piece list ih =>
      obtain ⟨hle, heq⟩ := piece.length_value
      rw [List.flatMap_cons, List.length_append, List.length_cons]
      refine ⟨by omega, ?_⟩
      rw [show piece.value.length + (list.flatMap Piece.value).length =
          list.length + 1 ↔ piece.value.length = 1 ∧
            (list.flatMap Piece.value).length = list.length by omega, heq, ih.2]
      constructor
      · rintro ⟨hpiece, hlist⟩ rest hmem
        rcases List.mem_cons.mp hmem with hcut | hmem
        · exact hpiece rest hcut.symm
        · exact hlist rest hmem
      · intro hall
        exact ⟨fun rest hcut => hall rest (List.mem_cons.mpr (Or.inl hcut.symm)),
          fun rest hmem => hall rest (List.mem_cons_of_mem _ hmem)⟩

end

section

variable {text rest : Bytes} {c : UInt8} {n place r : Nat}

theorem length_pieces_escape :
    (pieces (ascii '%' :: rest)).length = (pieces (rest.drop 2)).length + 1 := by
  rcases rest with _ | ⟨a, _ | ⟨b, rest⟩⟩
  · rfl
  · rfl
  · rw [pieces_escape]
    rfl

theorem countValueStep_end (hend : text.drop place = []) :
    Returns (countValueStep text (n, place)) (.inr n) := by
  rw [countValueStep]
  dsimp only
  rw [List.getElem?_eq_none (List.drop_eq_nil_iff.mp hend)]
  exact returns_pure_self _

/-- Where `c` is after an iteration of the first loop. -/
def nextPlace (place : Nat) (c : UInt8) : Nat :=
  (if c = ascii '%' then place + 2 else place) + 1

theorem countValueStep_piece {o : (Nat × Nat) ⊕ Nat}
    (hrest : text.drop place = c :: rest) :
    Returns (countValueStep text (n, place)) o ↔
      n + 1 ≤ intMax ∧ o = .inl (n + 1, nextPlace place c) := by
  have hc : text[place]? = some c := by
    rw [← List.head?_drop, hrest]
    rfl
  rw [countValueStep]
  dsimp only
  rw [hc]
  dsimp only
  rw [returns_bind]
  constructor
  · rintro ⟨m, hm, ho⟩
    obtain ⟨hle, rfl⟩ := returns_intAdd.mp hm
    exact ⟨hle, (returns_pure.mp ho).symm⟩
  · rintro ⟨hle, rfl⟩
    exact ⟨n + 1, returns_intAdd.mpr ⟨hle, rfl⟩, returns_pure_self _⟩

/-- An iteration of the first loop passes one piece. -/
theorem length_pieces_next (hrest : text.drop place = c :: rest) :
    (pieces (text.drop place)).length =
      (pieces (text.drop (nextPlace place c))).length + 1 := by
  rw [nextPlace, hrest]
  by_cases hc : c = ascii '%'
  · have hdrop : text.drop (place + 2 + 1) = rest.drop 2 := by
      rw [Nat.add_assoc, ← List.drop_drop, hrest]
      rfl
    rw [if_pos hc, hdrop, hc, length_pieces_escape]
  · have hdrop : text.drop (place + 1) = rest := by
      rw [← List.drop_drop, hrest]
      rfl
    rw [if_neg hc, hdrop, pieces_byte hc, List.length_cons]

theorem countValue_from (hn : n ≤ intMax) :
    Returns (Proc.loop (countValueStep text) (n, place)) r ↔
      n + (pieces (text.drop place)).length ≤ intMax ∧
        r = n + (pieces (text.drop place)).length := by
  induction hm : (pieces (text.drop place)).length generalizing n place with
  | zero =>
      have hend : text.drop place = [] := by
        cases hrest : text.drop place with
        | nil => rfl
        | cons c rest =>
            rw [length_pieces_next hrest] at hm
            cases hm
      have hexit := (countValueStep_end (n := n) hend).loop_exit
      constructor
      · exact fun hr => ⟨hn, (hexit.unique hr).symm⟩
      · rintro ⟨-, rfl⟩
        exact hexit
  | succ m ih =>
      cases hrest : text.drop place with
      | nil =>
          rw [hrest] at hm
          cases hm
      | cons c rest =>
          have hstep := fun o => @countValueStep_piece _ _ c n place o hrest
          rw [length_pieces_next hrest] at hm
          by_cases hfits : n + 1 ≤ intMax
          · rw [((hstep _).mpr ⟨hfits, rfl⟩).loop_next,
              ih hfits (Nat.succ.inj hm), Nat.add_right_comm, Nat.add_assoc]
          · refine iff_of_false (fun hr => ?_) fun h => hfits (by omega)
            rcases returns_loop_iff.mp hr with ⟨s, hs, -⟩ | hr
            · exact hfits ((hstep _).mp hs).1
            · exact hfits ((hstep _).mp hr).1

/-- The first loop of `parse_cookie_value` counts the pieces. -/
theorem countValue_returns_iff {text : Bytes} :
    Returns (countValue text) r ↔
      (pieces text).length ≤ intMax ∧ r = (pieces text).length := by
  have hcount := @countValue_from text 0 0 r (Nat.zero_le _)
  rwa [List.drop_zero, Nat.zero_add] at hcount

theorem countEncodedChar_eq (count : Nat) (c : UInt8) :
    countEncodedChar count c = intAdd count (encodeByte c).length := by
  rw [countEncodedChar, length_encodeByte]
  split <;> rfl

theorem countEncoded_from {value : Bytes} (hn : n ≤ intMax) :
    Returns (value.foldlM countEncodedChar n) r ↔
      n + (encoded value).length ≤ intMax ∧
        r = n + (encoded value).length := by
  induction value generalizing n with
  | nil =>
      constructor
      · exact fun h => ⟨hn, (returns_pure.mp h).symm⟩
      · rintro ⟨-, rfl⟩
        exact returns_pure_self _
  | cons c value ih =>
      rw [List.foldlM_cons, returns_bind, encoded, List.flatMap_cons,
        List.length_append, ← encoded, ← Nat.add_assoc]
      constructor
      · rintro ⟨m, hm, h⟩
        rw [countEncodedChar_eq] at hm
        obtain ⟨hle, rfl⟩ := returns_intAdd.mp hm
        exact (ih hle).mp h
      · intro h
        have hle : n + (encodeByte c).length ≤ intMax := by omega
        refine ⟨n + (encodeByte c).length, ?_, (ih hle).mpr h⟩
        rw [countEncodedChar_eq]
        exact returns_intAdd.mpr ⟨hle, rfl⟩

/-- The bytes that `encode_value` writes as an escape. -/
def isEscaped (c : UInt8) : Bool :=
  decide (c = ascii '%' ∨ c = ascii '=' ∨ c = ascii ';')

theorem length_encoded (value : Bytes) :
    (encoded value).length = value.length + 2 * value.countP isEscaped := by
  induction value with
  | nil => rfl
  | cons c value ih =>
      rw [encoded, List.flatMap_cons, List.length_append, ← encoded, ih,
        length_encodeByte, List.countP_cons, List.length_cons]
      simp only [isEscaped, decide_eq_true_eq]
      split <;> omega

end

section

variable {out : BlockWriter} {text : Bytes} {limit : Nat}

theorem puts_stores (hfits : out.r + text.length ≤ out.block.size) :
    (out.puts text).r = out.r + text.length ∧
      Block.Stays (out.r + text.length) out.block (out.puts text).block ∧
      (out.puts text).block.take (out.r + text.length) =
        out.block.take out.r ++ text := by
  induction text generalizing out with
  | nil => exact ⟨rfl, Block.Stays.refl _ _, (List.append_nil _).symm⟩
  | cons c text ih =>
      rw [List.length_cons] at hfits ⊢
      have hlength : out.r + (text.length + 1) = out.r + 1 + text.length := by
        omega
      have hrest : (out.put c).r + text.length ≤ (out.put c).block.size := by
        rw [hlength] at hfits
        exact hfits
      obtain ⟨hr, hstays, htake⟩ := ih hrest
      have hput : Block.Stays (out.r + 1) out.block (out.put c).block :=
        Block.store_stays c (Nat.lt_succ_self _)
      have hfirst : (out.put c).block.take (out.r + 1) =
          out.block.take out.r ++ [c] :=
        @Block.take_store out.block out.r [c] (by
          rw [List.length_singleton]
          omega)
      rw [hlength]
      refine ⟨hr, hput.trans hstays (Nat.le_add_right _ _), ?_⟩
      refine htake.trans ?_
      change (out.put c).block.take (out.r + 1) ++ text = _
      rw [hfirst, List.append_assoc, List.singleton_append]

/-- The second loop of `parse_cookie_value` stores what the value stands
for. -/
theorem foldl_storeValueChar (text : Bytes) (d : Int) (out : BlockWriter) :
    (text.foldl storeValueChar ⟨0, d, out⟩).out = out.puts (decoded text) := by
  induction text using decoded.induct generalizing d out with
  | case1 => rfl
  | case2 high low rest ih =>
      have hrest := ih (hex high * 16 + hex low)
        (out.put (intToChar (hex high * 16 + hex low)))
      simpa [decoded, storeValueChar, BlockWriter.puts] using hrest
  | case3 rest hnot =>
      rcases rest with _ | ⟨a, _ | ⟨b, rest⟩⟩
      · simp [decoded, storeValueChar, BlockWriter.puts]
      · simp [decoded, storeValueChar, BlockWriter.puts]
      · exact absurd rfl (hnot a b rest)
  | case4 c rest hc ih =>
      have hrest := ih d (out.put c)
      rw [decoded_cons hc]
      simpa [storeValueChar, hc, BlockWriter.puts] using hrest

/-- The second loop of `encode_value` stores the encoded text. -/
theorem foldl_encodeByte (value : Bytes) (out : BlockWriter) :
    value.foldl (fun v c => v.puts (encodeByte c)) out =
      out.puts (encoded value) :=
  List.foldl_flatMap.symm

/-- A text stored from the beginning of a new block on, and a NUL. -/
theorem finish_inside {size : Nat} (text : Bytes) (fresh : Nat → UInt8) (counted : Nat)
    (hfits : text.length < size) :
    let passes := ((BlockWriter.new size fresh).puts text).finish counted
    passes.stored = text.length ∧ passes.Inside ∧ passes.block.Spells text := by
  have hroom : (BlockWriter.new size fresh).r + text.length ≤
      (BlockWriter.new size fresh).block.size := by
    change 0 + text.length ≤ size
    omega
  obtain ⟨hr, hstays, htake⟩ := puts_stores hroom
  generalize hout : (BlockWriter.new size fresh).puts text = out
  rw [hout] at hr hstays htake
  change out.r = 0 + text.length at hr
  change Block.Stays (0 + text.length) _ out.block at hstays
  change out.block.take (0 + text.length) = [] ++ text at htake
  rw [Nat.zero_add] at hr hstays htake
  have hsize : out.block.size = size := hstays.size_eq
  have hend : Block.Stays (text.length + 1) (BlockWriter.new size fresh).block
      (out.block.store out.r [0]) :=
    hstays.trans (Block.store_stays 0 (by omega)) (Nat.le_succ _)
  have hspells := Block.Spells.append htake
    (show text.length + ([] : Bytes).length < out.block.size by
      rw [hsize]
      exact hfits)
  rw [← hr, List.append_nil, List.nil_append] at hspells
  refine ⟨hr, ⟨?_, ?_⟩, hspells⟩
  · change out.r < out.block.size
    rw [hr, hsize]
    exact hfits
  · intro access haccess
    rcases hend.accesses access haccess with hold | ⟨hinside, hblock⟩
    · exact absurd hold List.not_mem_nil
    · rw [Access.Within, hblock]
      exact Nat.le_trans hinside hfits

end

section

variable {d : Int} {fresh : Nat → UInt8} {text value : Bytes}
  {passes : TwoPasses}

theorem parseCookieValuePasses_returns_iff :
    Returns (parseCookieValuePasses d fresh text) passes ↔
      (pieces text).length + 1 ≤ intMax ∧
        passes = ((BlockWriter.new ((pieces text).length + 1) fresh).puts
          (decoded text)).finish (pieces text).length := by
  rw [parseCookieValuePasses, returns_bind]
  constructor
  · rintro ⟨n, hn, h⟩
    obtain ⟨-, rfl⟩ := countValue_returns_iff.mp hn
    obtain ⟨size, hsize, h⟩ := returns_bind.mp h
    obtain ⟨hle, rfl⟩ := returns_intAdd.mp hsize
    rw [returns_pure, foldl_storeValueChar] at h
    exact ⟨hle, h.symm⟩
  · rintro ⟨hle, rfl⟩
    refine ⟨_, countValue_returns_iff.mpr ⟨Nat.le_of_succ_le hle, rfl⟩, ?_⟩
    refine (returns_intAdd.mpr ⟨hle, rfl⟩).bind ?_
    dsimp only
    rw [foldl_storeValueChar]
    exact returns_pure_self _

theorem encodeValuePasses_returns_iff :
    Returns (encodeValuePasses fresh value) passes ↔
      (encoded (cString value)).length + 1 ≤ intMax ∧
        passes = ((BlockWriter.new ((encoded (cString value)).length + 1)
          fresh).puts (encoded (cString value))).finish
            ((encoded (cString value)).length + 1) := by
  have hone : 1 ≤ intMax := by decide
  rw [encodeValuePasses, returns_bind]
  constructor
  · rintro ⟨count, hcount, h⟩
    obtain ⟨hle, rfl⟩ := (countEncoded_from hone).mp hcount
    rw [returns_pure, foldl_encodeByte, Nat.add_comm 1] at h
    rw [Nat.add_comm 1] at hle
    exact ⟨hle, h.symm⟩
  · rintro ⟨hle, rfl⟩
    rw [Nat.add_comm] at hle
    refine ⟨_, (countEncoded_from hone).mpr ⟨hle, rfl⟩, ?_⟩
    rw [foldl_encodeByte, Nat.add_comm 1]
    exact returns_pure_self _

/-- The block holds the string that `parse_cookie_value` hands out. -/
theorem parseCookieValuePasses_spells
    (h : Returns (parseCookieValuePasses d fresh text) passes) :
    ∃ result, Returns (parseCookieValue text) result ∧
      passes.block.Spells result := by
  obtain ⟨-, rfl⟩ := parseCookieValuePasses_returns_iff.mp h
  have hlength := (length_values (pieces text)).1
  rw [pieces_value] at hlength
  refine ⟨decoded text, ?_,
    (finish_inside _ fresh _ (Nat.lt_succ_of_le hlength)).2.2⟩
  rw [parseCookieValue_eq]
  exact returns_pure_self _

/-- The block holds the string that `encode_value` hands out. -/
theorem encodeValuePasses_spells
    (h : Returns (encodeValuePasses fresh value) passes) :
    ∃ result, Returns (encodeValue (.string (cString value))) result ∧
      passes.block.Spells result := by
  obtain ⟨-, rfl⟩ := encodeValuePasses_returns_iff.mp h
  exact ⟨_, encodeValue_returns _,
    (finish_inside _ fresh _ (Nat.lt_succ_self _)).2.2⟩

/-- The second pass of `parse_cookie_value` stores no more bytes than the first
one counted, and as many where the last escape is complete, and stores them
and the NUL inside the block. -/
def ValueFits (text : Bytes) : Prop :=
  ∀ d fresh, ∃ passes, Returns (parseCookieValuePasses d fresh text) passes ∧
    passes.stored ≤ passes.counted ∧
    (EscapesComplete text → passes.stored = passes.counted) ∧ passes.Inside

/-- The second pass of `encode_value` stores as many bytes as the first one
counted, with the NUL, inside the block. -/
def EncodedFits (value : Bytes) : Prop :=
  ∀ fresh, ∃ passes, Returns (encodeValuePasses fresh value) passes ∧
    passes.stored + 1 = passes.counted ∧ passes.Inside

theorem valueFits_iff :
    ValueFits text ↔ (pieces text).length + 1 ≤ intMax := by
  constructor
  · intro h
    obtain ⟨passes, hpasses, -⟩ := h 0 fun _ => 0
    exact (parseCookieValuePasses_returns_iff.mp hpasses).1
  · intro hle d fresh
    obtain ⟨hlength, hequal⟩ := length_values (pieces text)
    rw [pieces_value] at hlength hequal
    obtain ⟨hstored, hinside, -⟩ := finish_inside (decoded text) fresh
      (pieces text).length (Nat.lt_succ_of_le hlength)
    refine ⟨_, parseCookieValuePasses_returns_iff.mpr ⟨hle, rfl⟩, ?_, ?_,
      hinside⟩
    · rw [hstored]
      exact hlength
    · intro hcomplete
      rw [hstored]
      exact hequal.mpr hcomplete

theorem encodedFits_iff :
    EncodedFits value ↔
      (cString value).length + 2 * (cString value).countP isEscaped + 1 ≤
        intMax := by
  rw [← length_encoded]
  constructor
  · intro h
    obtain ⟨passes, hpasses, -⟩ := h fun _ => 0
    exact (encodeValuePasses_returns_iff.mp hpasses).1
  · intro hle fresh
    obtain ⟨hstored, hinside, -⟩ := finish_inside
      (encoded (cString value)) fresh
      ((encoded (cString value)).length + 1) (Nat.lt_succ_self _)
    refine ⟨_, encodeValuePasses_returns_iff.mpr ⟨hle, rfl⟩, ?_, hinside⟩
    rw [hstored]
    rfl

end

/-- The two passes agree, and every byte is stored inside the block, exactly
for the values whose pieces, and for the strings whose bytes with two more for
each escape, can be counted in an `int` together with the NUL. -/
theorem cookie_passes_agree_iff (text value : Bytes) :
    (ValueFits text ↔ (pieces text).length + 1 ≤ intMax) ∧
      (EncodedFits value ↔
        (cString value).length + 2 * (cString value).countP isEscaped + 1 ≤
          intMax) :=
  ⟨valueFits_iff, encodedFits_iff⟩

/-- 715827883 times `%` is a string of which each byte counts three. -/
theorem encode_count_overflows :
    ∃ value : Bytes, value = List.replicate 715827883 (ascii '%') ∧
      (0 : UInt8) ∉ value ∧ ¬ EncodedFits value := by
  refine ⟨_, rfl, ?_, ?_⟩
  · intro hnul
    exact absurd (List.eq_of_mem_replicate hnul) (by decide)
  · have hstring : cString (List.replicate 715827883 (ascii '%')) =
        List.replicate 715827883 (ascii '%') := by
      rw [cString, List.takeWhile_replicate, if_pos (by decide)]
    have hescaped : isEscaped (ascii '%') = true := by decide
    rw [encodedFits_iff, hstring, List.length_replicate,
      List.countP_replicate, if_pos hescaped]
    decide

end Libcad
