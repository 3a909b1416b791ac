/-
When the objects that lookups hand out are released.  A rendering that
succeeds has released each of them once.
-/
import Libcad.StacheLedger

namespace Libcad

open Proc Ledger

variable {σ ο τ : Type}

section

variable {cb : Callback σ ο τ} {start : Int}
  {before after buffer : Buffer σ ο τ}

/-- The engine stands at a byte it has read, or the input has ended and no
partial is pending. -/
def Anchored (buffer : Buffer σ ο τ) : Prop :=
  buffer.index < buffer.fill ∨ (buffer.eof = true ∧ buffer.partials = [])

theorem Anchored.back (h : Anchored buffer) {index : Int}
    (hindex : index ≤ buffer.index) :
    Anchored { buffer with index := index } := by
  rcases h with hlt | hended
  · exact Or.inl (Int.lt_of_le_of_lt hindex hlt)
  · exact Or.inr hended

theorem Anchored.next (h : Anchored before)
    (hread : NextStep cb before after) : Anchored after := by
  cases hread with
  | ended => exact h
  | next hlive hfill =>
      rcases h with hlt | ⟨heof, -⟩
      · exact Or.inl (by dsimp only; omega)
      · rw [hlive] at heof
        cases heof
  | finish capacity _ _ hpartials => exact Or.inr ⟨rfl, hpartials⟩
  | input _ _ _ _ _ hfill => exact Or.inl (by dsimp only; omega)
  | stream _ _ _ _ _ hfill => exact Or.inl (by dsimp only; omega)
  | release _ _ _ hfill => exact Or.inl (by dsimp only; omega)
  | drop _ _ _ hfill => exact Or.inl (by dsimp only; omega)

theorem Anchored.reads (h : Anchored before)
    (hread : ReadsTo cb start before after) : Anchored after := by
  refine hread.invariant (I := Anchored) ?_ h
  intro b c hb hstep
  cases hstep with
  | read hread => exact hb.next hread
  | back _ hindex => exact hb.back hindex

theorem NextStep.loops (h : NextStep cb before after) :
    after.loops = before.loops := by
  cases h <;> rfl

theorem ReadsTo.loops (h : ReadsTo cb start before after) :
    after.loops = before.loops := by
  refine h.invariant (I := fun b => b.loops = before.loops) ?_ rfl
  intro b c hb hstep
  cases hstep with
  | read hread => exact hread.loops.trans hb
  | back => exact hb

/-- The bodies of the open sections start before the place, each one after
those around it. -/
def Ordered (index : Int) (loops : List (StacheLoop ο)) : Prop :=
  (index :: loops.map StacheLoop.bufferIndex).Pairwise (· ≥ ·)

theorem Ordered.forward {index index' : Int} {loops : List (StacheLoop ο)}
    (h : Ordered index loops) (hle : index ≤ index') :
    Ordered index' loops := by
  obtain ⟨hall, hloops⟩ := List.pairwise_cons.mp h
  exact List.pairwise_cons.mpr
    ⟨fun i hi => Int.le_trans (hall i hi) hle, hloops⟩

theorem Ordered.open {index : Int} {loop : StacheLoop ο}
    {loops : List (StacheLoop ο)} (h : Ordered index loops)
    (hat : loop.bufferIndex = index) : Ordered index (loop :: loops) := by
  obtain ⟨hall, -⟩ := List.pairwise_cons.mp h
  subst hat
  exact List.pairwise_cons.mpr
    ⟨List.forall_mem_cons.mpr ⟨Int.le_refl _, hall⟩, h⟩

theorem Ordered.close {index : Int} {loop : StacheLoop ο}
    {loops : List (StacheLoop ο)} (h : Ordered index (loop :: loops)) :
    Ordered index loops ∧ Ordered loop.bufferIndex loops ∧
      loop.bufferIndex ≤ index := by
  obtain ⟨hall, hloops⟩ := List.pairwise_cons.mp h
  obtain ⟨hle, hrest⟩ := List.forall_mem_cons.mp hall
  exact ⟨List.pairwise_cons.mpr ⟨hrest, (List.pairwise_cons.mp hloops).2⟩,
    hloops, hle⟩

/-- Where the engine is between two steps. -/
structure Placed (buffer : Buffer σ ο τ) : Prop where
  anchored : Anchored buffer
  ordered : Ordered buffer.index buffer.loops

theorem EngineStep.placed {r : Bool × Buffer σ ο τ}
    (h : EngineStep cb start buffer r) (hanchored : Anchored buffer)
    (hstart : start ≤ buffer.index) (hordered : Ordered start buffer.loops) :
    r.1 = true → Placed r.2 := by
  have hplace := hordered.forward hstart
  cases h with
  | read output result hread =>
      have hwritten : Anchored { buffer with output := output } := hanchored
      have hafter := hread.start_le hstart
      have hloops := hread.loops
      exact fun _ => ⟨hwritten.reads hread,
        hloops ▸ hordered.forward hafter⟩
  | reject suffix hindex hle =>
      exact fun _ => ⟨hanchored.back hle, hordered.forward hindex⟩
  | delimiters | nothing | shown => exact fun _ => ⟨hanchored, hplace⟩
  | openSection => exact fun _ => ⟨hanchored, hplace.open rfl⟩
  | closeSection hloops =>
      rw [hloops] at hplace
      exact fun _ => ⟨hanchored, hplace.close.1⟩
  | nextItem hloops =>
      rw [hloops] at hplace
      obtain ⟨-, hinner, hle⟩ := hplace.close
      exact fun _ => ⟨hanchored.back hle, hinner.open rfl⟩
  | closeList hloops =>
      rw [hloops] at hplace
      exact fun _ => ⟨hanchored, hplace.close.1⟩
  | inclusion stream save result _ _ _ hread _ hmore =>
      intro hresult
      obtain ⟨-, hindex⟩ := hmore hresult
      have hbefore : start - 1 < start := by omega
      have hafter := Anchored.next (Or.inl hbefore) hread
      have hloops := hread.loops
      exact ⟨hafter, hloops ▸ hindex ▸ hordered⟩
  | fail | unexpectedList | unexpectedStream | invalid | keepList =>
      exact nofun

/-- Nothing is pending where the loop of `render_template` ends. -/
theorem Placed.ended (h : Placed buffer) (heof : bufferEof buffer = true) :
    buffer.partials = [] := by
  rw [bufferEof, Bool.and_eq_true, decide_eq_true_iff] at heof
  rcases h.anchored with hlt | ⟨-, hnone⟩
  · exact absurd heof.2 (Int.not_le.mpr hlt)
  · exact hnone

end

section

variable {fns : StreamFns τ} {cb : Callback σ ο τ}
  {buffer : Buffer (Traced σ) (Nat × ο) τ}

/-- What holds before every step of `render_template`. -/
structure Between (cb : Callback σ ο τ)
    (buffer : Buffer (Traced σ) (Nat × ο) τ) : Prop where
  running : Running cb buffer
  placed : Placed buffer

/-- What holds where `render_template` returns. -/
structure Left (cb : Callback σ ο τ)
    (r : Bool × Buffer (Traced σ) (Nat × ο) τ) : Prop where
  accounted : Accounted cb r.2
  harmless : r.1 = true → Harmless r.2.error
  partials : r.1 = true → r.2.partials = []

theorem Between.step {o : Buffer (Traced σ) (Nat × ο) τ ⊕
      (Bool × Buffer (Traced σ) (Nat × ο) τ)}
    (h : Between cb buffer)
    (hstep : Returns (renderStep fns cb.traced buffer) o) :
    Sum.elim (Between cb) (Left cb) o := by
  rcases renderStep_step hstep with ⟨heof, rfl⟩ | ⟨read, r, hread, htag, rfl⟩
  · exact ⟨h.running.accounted, fun _ => h.running.harmless,
      fun _ => h.placed.ended heof⟩
  · obtain ⟨haccounted, hrunning⟩ := (h.running.reads hread).step htag
    have hplaced := htag.placed (h.placed.anchored.reads hread)
      (hread.start_le (Int.le_refl _)) (hread.loops ▸ h.placed.ordered)
    obtain ⟨result, next⟩ := r
    cases result with
    | true => exact ⟨hrunning rfl, hplaced rfl⟩
    | false => exact ⟨haccounted, nofun, nofun⟩

theorem Between.template {r : Bool × Buffer (Traced σ) (Nat × ο) τ}
    (h : Between cb buffer)
    (hrun : Returns (renderTemplate fns cb.traced buffer) r) : Left cb r :=
  Returns.loop_ensures (fun _ _ h hstep => h.step hstep) h hrun

variable {env : σ} {input : InputStream τ} {data : Int → UInt8}

/-- Before the template is read no object was handed out. -/
theorem newBuffer_running :
    Running cb (newBuffer ⟨env, Ledger.empty⟩ input data) := by
  have herror : Harmless "" := by decide
  exact ⟨accounts_empty, fun _ hmem => absurd hmem List.not_mem_nil, herror⟩

theorem between_start {more : Bool}
    {start : Buffer (Traced σ) (Nat × ο) τ}
    (hnext : Returns (bufferNext fns cb.traced
      (newBuffer ⟨env, Ledger.empty⟩ input data)) (more, start)) :
    Between cb start := by
  have hread := bufferNext_step hnext
  have hanchored : Anchored
      (newBuffer (⟨env, Ledger.empty⟩ : Traced σ) input data :
        Buffer (Traced σ) (Nat × ο) τ) :=
    Or.inl (show (-1 : Int) < 0 by decide)
  refine ⟨newBuffer_running.next hread, hanchored.next hread, ?_⟩
  rw [hread.loops]
  exact List.pairwise_singleton _ _

/-- Every object is released at most once and not used afterwards; a
rendering that succeeds has released every object. -/
theorem render_releases {r : Rendered (Traced σ)}
    (h : Returns (render fns cb.traced ⟨env, Ledger.empty⟩ input data) r) :
    Obeys r.env.ledger.trace ∧
      (r.code = 0 → Settled r.env.ledger.trace) := by
  obtain ⟨start, result, last, hnext, htemplate, rfl⟩ := render_returns h
  have hleft := (between_start hnext).template htemplate
  refine ⟨hleft.accounted.accounts.obeys, fun hcode => ?_⟩
  have hdone : result = true ∧ last.loops = [] := by
    cases result with
    | false => cases hcode
    | true =>
        refine ⟨rfl, ?_⟩
        by_cases hloops : last.loops = []
        · exact hloops
        · rw [Buffer.rendered, if_pos rfl, if_neg hloops] at hcode
          cases hcode
  obtain ⟨rfl, hloops⟩ := hdone
  have hnone : last.owned cb = [] := by
    rw [last.owned_eq (hleft.harmless rfl), hloops, hleft.partials rfl]
    rfl
  refine hleft.accounted.accounts.settled_iff.mpr ?_
  rw [hnone]
  exact fun _ hmem => absurd hmem List.not_mem_nil

def stringAnswers : Answers Empty :=
  fun _ _ => .string (some (some (chars "s"))) (some true)

def emptyListAnswers : Answers Empty :=
  fun _ _ => .list (some fun _ => false) (some true)

theorem render_releases_partial :
    ∃ r, Returns (render noStreams (answering stringAnswers).traced
        ⟨[], Ledger.empty⟩ (newInputStreamFromString (chars "{{>p}}."))
        fun _ => 0) r ∧
      r.output = chars "s." ∧ Settled r.env.ledger.trace := by
  have hrun : Returns (render noStreams (answering stringAnswers).traced
      ⟨[], Ledger.empty⟩ (newInputStreamFromString (chars "{{>p}}."))
      fun _ => 0) _ := ⟨9, rfl⟩
  exact ⟨_, hrun, rfl, (render_releases hrun).2 rfl⟩

end

end Libcad
