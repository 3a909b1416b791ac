/-
Two engines at the same token of two spellings of a template.  They have the
same partials stacked and the same state behind the callback; where a partial
is still to be read, the spellings are the same up to its end.
-/
import Libcad.StacheStands
import Mathlib.Data.List.Forall2

namespace Libcad

open Proc

variable {σ ο τ : Type}

def StacheLoop.SameAs (toks spelled : List Token) (frontier : Nat)
    (loop loop' : StacheLoop ο) : Prop :=
  ∃ mark ≤ frontier, loop.bufferIndex = offset toks mark ∧
    loop' = { loop with bufferIndex := offset spelled mark }

/-- What the partials hold is spelled the same; the input goes on one byte
after it. -/
def SameInside (fns : StreamFns τ) (input : InputStream τ)
    (toks spelled : List Token) : Prop :=
  ∃ own rest rest', toks = own ++ rest ∧ spelled = own ++ rest' ∧
    input.Delivers fns (tokenBytes rest).tail

/-- Both engines stand at the same token. -/
structure Aligned (fns : StreamFns τ) (cb : Callback σ ο τ)
    (toks spelled : List Token) (pos frontier : Nat)
    (a b : Buffer σ ο τ) : Prop where
  tokens : List.Forall₂ Token.SpacedAs toks spelled
  left : StandsAt fns cb toks pos frontier a
  right : StandsAt fns cb spelled pos frontier b
  included : b.included = a.included
  output : b.output = a.output
  loops : List.Forall₂ (StacheLoop.SameAs toks spelled frontier) a.loops b.loops
  inside : frontier ≠ toks.length → a.partials ≠ [] →
    SameInside fns a.input (toks.drop frontier) (spelled.drop frontier)

section

variable {fns : StreamFns τ} {cb : Callback σ ο τ} {toks spelled : List Token}
  {pos frontier : Nat} {a b a' b' : Buffer σ ο τ} {tok : Token}

theorem Aligned.length_eq (h : Aligned fns cb toks spelled pos frontier a b) :
    toks.length = spelled.length := h.tokens.length_eq

theorem Aligned.env (h : Aligned fns cb toks spelled pos frontier a b) :
    b.env = a.env := congrArg Prod.fst h.included

theorem Aligned.partials (h : Aligned fns cb toks spelled pos frontier a b) :
    b.partials = a.partials := congrArg Prod.snd h.included

theorem Aligned.spelled_tok
    (h : Aligned fns cb toks spelled pos frontier a b)
    (htok : toks[pos]? = some tok) :
    ∃ tok', spelled[pos]? = some tok' ∧ tok.SpacedAs tok' := by
  obtain ⟨hpos, rfl⟩ := List.getElem?_eq_some_iff.mp htok
  have hpos' : pos < spelled.length := h.length_eq ▸ hpos
  exact ⟨spelled[pos], List.getElem?_eq_getElem hpos',
    h.tokens.get hpos hpos'⟩

/-- The partials hold more than what the input delivers. -/
theorem Pending.length_lt {input : InputStream τ} {text : Bytes}
    (hinput : input.Delivers fns text) {partials : List (StachePartial ο τ)} :
    ∀ {held : List (Held ο τ)} {rest : Bytes},
      Pending fns input partials held rest →
      text.length ≤ rest.length ∧
        (partials ≠ [] → text.length < rest.length) := by
  induction partials with
  | nil =>
      intro held rest h
      cases held with
      | cons h₀ held => exact h.elim
      | nil =>
          have hrest : input.Delivers fns rest := h
          rw [InputStream.Delivers.unique fns hrest hinput]
          exact ⟨Nat.le_refl _, fun hne => absurd rfl hne⟩
  | cons part partials ih =>
      intro held rest h
      cases held with
      | nil => exact h.elim
      | cons h₀ held =>
          obtain ⟨-, own, tail, -, rfl, hpending⟩ := h
          obtain ⟨hle, -⟩ := ih hpending
          rw [List.length_append, List.length_cons]
          exact ⟨by omega, fun _ => by omega⟩

/-- What has been read at a token that is not the end. -/
theorem readAhead_live (hlive : frontier < toks.length) :
    readAhead (tokenBytes toks) 0 (offset toks frontier) =
      offset toks frontier + 1 := by
  have hlt := offset_lt hlive (Nat.le_refl _)
  rw [offset_length] at hlt
  rw [readAhead]
  omega

theorem drop_readAhead (hlive : frontier < toks.length) :
    (tokenBytes toks).drop
        (readAhead (tokenBytes toks) 0 (offset toks frontier)) =
      (tokenBytes (toks.drop frontier)).tail := by
  rw [readAhead_live hlive, ← List.tail_drop, drop_offset]

/-- A partial that is still to be read holds the token at the frontier. -/
theorem SameInside.own_ne_nil {own rest : List Token}
    (hstands : StandsAt fns cb toks pos frontier a)
    (hlive : frontier ≠ toks.length) (hpartials : a.partials ≠ [])
    (htoks : toks.drop frontier = own ++ rest)
    (hinput : a.input.Delivers fns (tokenBytes rest).tail) : own ≠ [] := by
  rintro rfl
  obtain ⟨held, hreading⟩ := hstands.reading
  have hlt := Nat.lt_of_le_of_ne hstands.frontier_le hlive
  obtain ⟨-, hpending⟩ := hreading.live (hstands.live hlive)
  rw [drop_readAhead hlt, htoks] at hpending
  exact Nat.lt_irrefl _ ((Pending.length_lt hinput hpending).2 hpartials)

/-- How far reading goes on over a token at the frontier. -/
theorem readAhead_succ (htok : toks[frontier]? = some tok) :
    readAhead (tokenBytes toks) 0 (offset toks (frontier + 1)) =
      readAhead (tokenBytes toks) 0 (offset toks frontier) +
        (if frontier + 1 = toks.length then tok.bytes.length - 1
          else tok.bytes.length) := by
  have hlt : frontier < toks.length := (List.getElem?_eq_some_iff.mp htok).1
  have hsucc := offset_succ htok
  have hpos := List.length_pos_iff.mpr tok.bytes_ne_nil
  rw [readAhead_live hlt]
  split
  next hend =>
    have hlen : offset toks (frontier + 1) = (tokenBytes toks).length := by
      rw [hend, offset_length]
    rw [readAhead]
    omega
  next hmore =>
    rw [readAhead_live (show frontier + 1 < toks.length by omega)]
    omega

/-- Both engines cross a token: they come to the same partials. -/
theorem Aligned.included_crossed
    (h : Aligned fns cb toks spelled pos frontier a b)
    (hlive : frontier ≠ toks.length) (htok : toks[pos]? = some tok)
    (ha : Crosses fns cb toks pos frontier a a')
    (hb : Crosses fns cb spelled pos frontier b b') :
    b'.included = a'.included := by
  by_cases hnil : a.partials = []
  · rw [(ha.reads _ fetches_closed).of_nil hnil, (hb.reads _ fetches_closed).of_nil (h.partials.trans hnil),
      h.included]
  · refine (ha.reads _ fetches_closed).congr (hb.reads _ fetches_closed) h.included ?_
    rw [ha.stands.fill_eq, hb.stands.fill_eq, h.left.fill_eq,
      h.right.fill_eq]
    rcases Nat.lt_or_eq_of_le h.left.pos_le with hold | rfl
    · rw [Nat.max_eq_left (show pos + 1 ≤ frontier from hold)]
      omega
    · -- Inside a partial the token is spelled the same.
      obtain ⟨own, rest, rest', htoks, hspelled, hinput⟩ := h.inside hlive hnil
      have hown := SameInside.own_ne_nil h.left hlive hnil htoks hinput
      obtain ⟨head, own, rfl⟩ := List.exists_cons_of_ne_nil hown
      have htok' : spelled[pos]? = some tok := by
        rw [← List.head?_drop, htoks] at htok
        rw [← List.head?_drop, hspelled]
        exact htok
      rw [Nat.max_eq_right (Nat.le_succ pos), readAhead_succ htok,
        readAhead_succ htok', h.length_eq]
      omega

theorem Aligned.cross (h : Aligned fns cb toks spelled pos frontier a b)
    (hlive : frontier ≠ toks.length) (htok : toks[pos]? = some tok)
    (ha : Crosses fns cb toks pos frontier a a')
    (hb : Crosses fns cb spelled pos frontier b b') :
    Aligned fns cb toks spelled (pos + 1) (max frontier (pos + 1)) a' b' where
  tokens := h.tokens
  left := ha.stands
  right := hb.stands
  included := h.included_crossed hlive htok ha hb
  output := by rw [ha.frame.output, hb.frame.output, h.output]
  loops := by
    rw [ha.frame.loops, hb.frame.loops]
    refine h.loops.imp ?_
    rintro loop loop' ⟨mark, hmark, hloop⟩
    exact ⟨mark, Nat.le_trans hmark (Nat.le_max_left _ _), hloop⟩
  inside := by
    intro hlive' hpartials
    have hbefore := (ha.reads _ fetches_closed).partials_ne_nil hpartials
    obtain ⟨own, rest, rest', htoks, hspelled, hinput⟩ :=
      h.inside hlive hbefore
    rw [(ha.reads _ fetches_closed).input hpartials]
    rcases Nat.lt_or_eq_of_le h.left.pos_le with hold | rfl
    · rw [Nat.max_eq_left (show pos + 1 ≤ frontier from hold)]
      exact ⟨own, rest, rest', htoks, hspelled, hinput⟩
    · have hown := SameInside.own_ne_nil h.left hlive hbefore htoks hinput
      obtain ⟨head, own, rfl⟩ := List.exists_cons_of_ne_nil hown
      rw [Nat.max_eq_right (Nat.le_succ pos), ← List.tail_drop,
        ← List.tail_drop, htoks, hspelled]
      exact ⟨own, rest, rest', rfl, rfl, hinput⟩

/-- Besides the text, the same is written on both sides. -/
theorem Aligned.written (h : Aligned fns cb toks spelled pos frontier a b)
    {env env' : σ} {output output' : Bytes} (henv : env' = env)
    (houtput : output' = output) (error error' : String) :
    Aligned fns cb toks spelled pos frontier
      { a with env := env, output := output, error := error }
      { b with env := env', output := output', error := error' } where
  tokens := h.tokens
  left := h.left.congr rfl rfl rfl rfl rfl rfl rfl rfl rfl
  right := h.right.congr rfl rfl rfl rfl rfl rfl rfl rfl rfl
  included := by
    subst henv
    exact congrArg (Prod.mk env') h.partials
  output := houtput
  loops := h.loops
  inside := h.inside

theorem Aligned.setEnv (h : Aligned fns cb toks spelled pos frontier a b)
    (env : σ) :
    Aligned fns cb toks spelled pos frontier (a.setEnv env) (b.setEnv env) :=
  h.written rfl h.output a.error b.error

theorem StacheLoop.SameAs.skips {loop loop' : StacheLoop ο}
    (h : loop.SameAs toks spelled frontier loop') :
    loop'.skips = loop.skips := by
  obtain ⟨mark, -, -, rfl⟩ := h
  rfl

theorem Aligned.skips (h : Aligned fns cb toks spelled pos frontier a b) :
    bufferSkipOutput b = bufferSkipOutput a := by
  rw [bufferSkipOutput, bufferSkipOutput]
  have hloops := h.loops
  generalize a.loops = loops at hloops
  generalize b.loops = loops' at hloops
  induction hloops with
  | nil => rfl
  | cons hloop _ ih => rw [List.any_cons, List.any_cons, hloop.skips, ih]

theorem Aligned.writes (h : Aligned fns cb toks spelled pos frontier a b)
    (text : Bytes) :
    Aligned fns cb toks spelled pos frontier (bufferOutput a text)
      (bufferOutput b text) := by
  rw [bufferOutput, bufferOutput, h.skips]
  split
  next => exact h
  next =>
    exact h.written h.env (congrArg (· ++ text) h.output) a.error b.error

theorem Aligned.setLoops
    (h : Aligned fns cb toks spelled pos frontier a b)
    {loops loops' : List (StacheLoop ο)}
    (hloops : List.Forall₂ (StacheLoop.SameAs toks spelled frontier) loops
      loops') :
    Aligned fns cb toks spelled pos frontier { a with loops := loops }
      { b with loops := loops' } where
  tokens := h.tokens
  left := h.left.congr rfl rfl rfl rfl rfl rfl rfl rfl rfl
  right := h.right.congr rfl rfl rfl rfl rfl rfl rfl rfl rfl
  included := h.included
  output := h.output
  loops := hloops
  inside := h.inside

theorem Aligned.rewind {mark : Nat}
    (h : Aligned fns cb toks spelled pos frontier a b)
    (hmark : mark ≤ frontier) :
    Aligned fns cb toks spelled mark frontier
      { a with index := offset toks mark }
      { b with index := offset spelled mark } where
  tokens := h.tokens
  left := h.left.rewind hmark
  right := h.right.rewind hmark
  included := h.included
  output := h.output
  loops := h.loops
  inside := h.inside

/-- What the partials and the input hold, whatever state is behind the
callback. -/
theorem StandsAt.pending (h : StandsAt fns cb toks pos frontier a)
    (hlive : frontier ≠ toks.length) (env : σ) :
    Pending fns a.input a.partials
      (heldBy cb (a.partials.map StachePartial.lookup) env)
      (tokenBytes (toks.drop frontier)).tail := by
  obtain ⟨held, hreading⟩ := h.reading
  obtain ⟨lookups, rfl⟩ := hreading.session
  obtain ⟨-, hpending⟩ := hreading.live (h.live hlive)
  rw [drop_readAhead (Nat.lt_of_le_of_ne h.frontier_le hlive)] at hpending
  exact hpending.under env

/-- One byte fetched by two engines with the same partials. -/
theorem Dropped.included {place place' : Nat} {a₁ b₁ last last' : Buffer σ ο τ}
    {more more' : Bool} (ha : Dropped place a a₁) (hb : Dropped place' b b₁)
    (hlive : a.eof = false) (hlive' : b.eof = false)
    (hincluded : b₁.included = a₁.included)
    (hnext : Returns (bufferNext fns cb a₁) (more, last))
    (hnext' : Returns (bufferNext fns cb b₁) (more', last')) :
    last'.included = last.included := by
  have hlast : a₁.index + 1 = a₁.fill := by
    rw [ha.index, ha.fill]
    omega
  have hlast' : b₁.index + 1 = b₁.fill := by
    rw [hb.index, hb.fill]
    omega
  rw [bufferNext_included (ha.eof.trans hlive) hlast hnext,
    bufferNext_included (hb.eof.trans hlive') hlast' hnext', hincluded]

/-- Both engines go on with other tokens in the place of a partial tag. -/
theorem Aligned.resume {toks' spelled' : List Token} {a₁ b₁ : Buffer σ ο τ}
    (h : Aligned fns cb toks spelled (pos + 1) (pos + 1) a b)
    (hlive : pos + 1 ≠ toks.length)
    (hloops : List.Forall₂ (StacheLoop.SameAs toks spelled pos) a.loops b.loops)
    (htokens : List.Forall₂ Token.SpacedAs toks' spelled')
    (htake : toks'.take pos = toks.take pos)
    (htake' : spelled'.take pos = spelled.take pos) (hlen : pos ≤ toks'.length)
    (ha : Dropped (offset toks pos) a a₁)
    (hb : Dropped (offset spelled pos) b b₁)
    (hincluded : b₁.included = a₁.included)
    {lookups lookups' : List (Lookup ο)}
    (hpending : Pending fns a₁.input a₁.partials (heldBy cb lookups a₁.env)
      (tokenBytes (toks'.drop pos)))
    (hpending' : Pending fns b₁.input b₁.partials (heldBy cb lookups' b₁.env)
      (tokenBytes (spelled'.drop pos)))
    (hinside : a₁.partials ≠ [] →
      SameInside fns a₁.input (toks'.drop pos) (spelled'.drop pos)) :
    ∃ last last', Returns (bufferNext fns cb a₁) (true, last) ∧
      Returns (bufferNext fns cb b₁) (true, last') ∧
      Aligned fns cb toks' spelled' pos pos last last' := by
  have hlive' : pos + 1 ≠ spelled.length := h.length_eq ▸ hlive
  obtain ⟨last, hnext, hstands, hframe⟩ :=
    h.left.resume hlive ha htake hlen hpending
  obtain ⟨last', hnext', hstands', hframe'⟩ :=
    h.right.resume hlive' hb htake' (htokens.length_eq ▸ hlen) hpending'
  have hall := ha.frame.trans hframe
  have hall' := hb.frame.trans hframe'
  have hfetches := bufferNext_fetched hnext
  refine ⟨last, last', hnext, hnext', htokens, hstands, hstands',
    ha.included hb (h.left.live hlive) (h.right.live hlive') hincluded hnext
      hnext', ?_, ?_, ?_⟩
  · rw [hall.output, hall'.output, h.output]
  · rw [hall.loops, hall'.loops]
    refine hloops.imp ?_
    rintro loop loop' ⟨mark, hmark, hindex, rfl⟩
    have hsame : offset toks' mark = offset toks mark ∧
        offset spelled' mark = offset spelled mark := by
      have hmin : min mark pos = mark := Nat.min_eq_left hmark
      have h₁ := congrArg (List.take mark) htake
      have h₂ := congrArg (List.take mark) htake'
      rw [List.take_take, List.take_take, hmin] at h₁ h₂
      rw [offset, offset, offset, offset, h₁, h₂]
      exact ⟨rfl, rfl⟩
    exact ⟨mark, hmark, by rw [hindex, hsame.1], by rw [hsame.2]⟩
  · intro _ hpartials
    rw [hfetches.input hpartials]
    exact hinside (hfetches.partials_ne_nil hpartials)

end

end Libcad
