/-
A flat loop against a program with loops of its own.  The loop is compared with
what is left of the program, one iteration at a time and in both directions at
once; a loop of the program may be gone around again only after an iteration of
the flat one.
-/
import Libcad.Agree

namespace Libcad

namespace Proc

universe u

variable {σ ρ α β γ δ : Type u}

/-- The loop returns after exactly this many iterations that go on. -/
inductive ReturnsAfter (body : σ → Proc (σ ⊕ ρ)) : Nat → σ → ρ → Prop
  | exit {s r} : Returns (body s) (.inr r) → ReturnsAfter body 0 s r
  | next {n s s' r} : Returns (body s) (.inl s') → ReturnsAfter body n s' r →
      ReturnsAfter body (n + 1) s r

variable {body : σ → Proc (σ ⊕ ρ)} {s s' : σ} {r : ρ}

theorem Returns.after (h : Returns (loop body s) r) :
    ∃ n, ReturnsAfter body n s r := by
  refine Returns.loop_induction
    (P := fun s r => ∃ n, ReturnsAfter body n s r) ?_ ?_ h
  · exact fun s r hexit => ⟨0, .exit hexit⟩
  · rintro s s' r hnext - ⟨n, hn⟩
    exact ⟨n + 1, .next hnext hn⟩

def loopUpTo (body : σ → Proc (σ ⊕ ρ)) : Nat → σ → Proc ρ
  | 0, _ => undefined
  | n + 1, s => body s >>= fun o =>
      match o with
      | .inl s' => loopUpTo body n s'
      | .inr r => pure r

theorem returns_loopUpTo :
    Returns (loop body s) r ↔ ∃ n, Returns (loopUpTo body n s) r := by
  constructor
  · intro h
    refine Returns.loop_induction
      (P := fun s r => ∃ n, Returns (loopUpTo body n s) r) ?_ ?_ h
    · exact fun s r hexit => ⟨1, hexit.bind (returns_pure_self r)⟩
    · rintro s s' r hnext - ⟨n, hn⟩
      exact ⟨n + 1, hnext.bind hn⟩
  · rintro ⟨n, hn⟩
    induction n generalizing s with
    | zero => exact absurd hn not_returns_undefined
    | succ n ih =>
        obtain ⟨o, ho, hrest⟩ := returns_bind.mp hn
        cases o with
        | inl s' => exact ho.loop_next.mpr (ih hrest)
        | inr r' =>
            rw [← returns_pure.mp hrest]
            exact ho.loop_exit

/-- The first iteration of a loop that is followed by something. -/
theorem returns_loop_bind {f : ρ → Proc β} {b : β} :
    Returns (loop body s >>= f) b ↔
      Returns (body s >>= fun o =>
        match o with
        | .inl s' => loop body s' >>= f
        | .inr r => f r) b := by
  constructor
  · intro h
    obtain ⟨r, hr, hb⟩ := returns_bind.mp h
    rcases returns_loop_iff.mp hr with ⟨s', hs, hr'⟩ | hexit
    · exact hs.bind (hr'.bind hb)
    · exact hexit.bind hb
  · intro h
    obtain ⟨o, ho, hb⟩ := returns_bind.mp h
    cases o with
    | inl s' =>
        obtain ⟨r, hr, hb⟩ := returns_bind.mp hb
        exact (ho.loop_next.mpr hr).bind hb
    | inr r => exact ho.loop_exit.bind hb

/-- Only the order of what is done matters, not how it is grouped. -/
theorem returns_bind_assoc {x : Proc α} {f : α → Proc β} {g : β → Proc γ}
    {c : γ} :
    Returns (x >>= fun a => f a >>= g) c ↔ Returns (x >>= f >>= g) c := by
  simp only [returns_bind]
  constructor
  · rintro ⟨a, ha, b, hb, hc⟩
    exact ⟨b, ⟨a, ha, hb⟩, hc⟩
  · rintro ⟨b, ⟨a, ha, hb⟩, hc⟩
    exact ⟨a, ha, b, hb, hc⟩

theorem returns_bind_pure {x : Proc α} {a : α} :
    Returns (x >>= pure) a ↔ Returns x a := by
  constructor
  · intro h
    obtain ⟨b, hb, hab⟩ := returns_bind.mp h
    cases returns_pure.mp hab
    exact hb
  · exact fun h => h.bind (returns_pure_self a)

/-- The direction of a comparison: what the program returns the loop returns,
or what the loop returns after fewer iterations than `n` the program
returns. -/
inductive Mode
  | back
  | forth (n : Nat)

/-- A comparison at a state that may be reached later. -/
inductive Mode.To : Mode → Mode → Prop
  | back : To .back .back
  | forth {n m} : m ≤ n → To (.forth n) (.forth m)

/-- A comparison at a state that is reached by iterations. -/
inductive Mode.Later : Mode → Mode → Prop
  | back : Later .back .back
  | forth {n m} : m < n → Later (.forth n) (.forth m)

variable {Q : ρ → β → Prop} {mode mode' mode'' : Mode} {x y : Proc β}

theorem Mode.To.refl : mode.To mode := by
  cases mode with
  | back => exact .back
  | forth n => exact .forth (Nat.le_refl n)

theorem Mode.Later.to (h : mode.Later mode') : mode.To mode' := by
  cases h with
  | back => exact .back
  | forth hlt => exact .forth (Nat.le_of_lt hlt)

theorem Mode.To.trans (h : mode.To mode') (h' : mode'.To mode'') :
    mode.To mode'' := by
  cases h with
  | back => exact h'
  | forth hle =>
      cases h' with
      | forth hle' => exact .forth (Nat.le_trans hle' hle)

theorem Mode.To.later (h : mode.To mode') (h' : mode'.Later mode'') :
    mode.Later mode'' := by
  cases h with
  | back => exact h'
  | forth hle =>
      cases h' with
      | forth hlt => exact .forth (Nat.lt_of_lt_of_le hlt hle)

theorem Mode.Later.trans_to (h : mode.Later mode') (h' : mode'.To mode'') :
    mode.Later mode'' := by
  cases h with
  | back =>
      cases h' with
      | back => exact .back
  | forth hlt =>
      cases h' with
      | forth hle => exact .forth (Nat.lt_of_le_of_lt hle hlt)

/-- The loop from `s` and the program `x` come to related results. -/
def Woven (body : σ → Proc (σ ⊕ ρ)) (Q : ρ → β → Prop) :
    Mode → σ → Proc β → Prop
  | .back, s, x => Simulates Q (loop body s) x
  | .forth n, s, x => ∀ m < n, ∀ r, ReturnsAfter body m s r →
      ∃ b, Returns x b ∧ Q r b

theorem Woven.congr (hxy : ∀ b, Returns x b ↔ Returns y b)
    (h : Woven body Q mode s x) : Woven body Q mode s y := by
  cases mode with
  | back => exact fun b hb => h b ((hxy b).mpr hb)
  | forth n =>
      intro m hm r hr
      obtain ⟨b, hb, hq⟩ := h m hm r hr
      exact ⟨b, (hxy b).mp hb, hq⟩

/-- One iteration of the loop, and the first part of the program. -/
theorem Woven.step {R : σ ⊕ ρ → γ → Prop} {z : Proc γ} {f : γ → Proc β}
    (h : Agree R (body s) z)
    (hnext : ∀ s' c, R (.inl s') c → ∀ mode', mode.Later mode' →
      Woven body Q mode' s' (f c))
    (hexit : ∀ r c, R (.inr r) c → ∃ b, Returns (f c) b ∧ Q r b) :
    Woven body Q mode s (z >>= f) := by
  cases mode with
  | back =>
      intro b hb
      obtain ⟨c, hc, hb⟩ := returns_bind.mp hb
      obtain ⟨o, ho, hrel⟩ := h.back c hc
      cases o with
      | inl s' =>
          obtain ⟨r, hr, hq⟩ := hnext s' c hrel .back .back b hb
          exact ⟨r, ho.loop_next.mpr hr, hq⟩
      | inr r =>
          obtain ⟨b', hb', hq⟩ := hexit r c hrel
          rw [hb.unique hb']
          exact ⟨r, ho.loop_exit, hq⟩
  | forth n =>
      intro m hm r hr
      cases hr with
      | exit hr =>
          obtain ⟨c, hc, hrel⟩ := h.forth _ hr
          obtain ⟨b, hb, hq⟩ := hexit r c hrel
          exact ⟨b, hc.bind hb, hq⟩
      | @next m _ s' _ hs hr =>
          obtain ⟨c, hc, hrel⟩ := h.forth _ hs
          obtain ⟨b, hb, hq⟩ := hnext s' c hrel (.forth (m + 1))
            (.forth hm) m (Nat.lt_succ_self m) r hr
          exact ⟨b, hc.bind hb, hq⟩

/-- One iteration of the loop that goes on, while the program waits. -/
theorem Woven.next (hs : Returns (body s) (.inl s'))
    (h : ∀ mode', mode.Later mode' → Woven body Q mode' s' x) :
    Woven body Q mode s x := by
  cases mode with
  | back =>
      intro b hb
      obtain ⟨r, hr, hq⟩ := h .back .back b hb
      exact ⟨r, hs.loop_next.mpr hr, hq⟩
  | forth n =>
      intro m hm r hr
      cases hr with
      | exit hexit => cases hs.unique hexit
      | @next m _ s'' _ hs' hr =>
          cases hs.unique hs'
          exact h (.forth (m + 1)) (.forth hm) m (Nat.lt_succ_self m) r hr

/-- The last iteration of the loop, while the program is at its end. -/
theorem Woven.exit {b : β} (hs : Returns (body s) (.inr r))
    (hx : Returns x b) (hq : Q r b) : Woven body Q mode s x := by
  cases mode with
  | back =>
      intro b' hb'
      rw [hb'.unique hx]
      exact ⟨r, hs.loop_exit, hq⟩
  | forth n =>
      intro m hm r' hr
      cases hr with
      | exit hexit =>
          cases hs.unique hexit
          exact ⟨b, hx, hq⟩
      | next hs' hr => cases hs.unique hs'

theorem Woven.run {z : Proc γ} {f : γ → Proc β} {c : γ} (hz : Returns z c)
    (h : Woven body Q mode s (f c)) : Woven body Q mode s (z >>= f) :=
  h.congr fun _ => hz.bind_iff.symm

/-- What the program does can be grouped otherwise. -/
theorem Woven.assoc {z : Proc α} {f : α → Proc γ} {g : γ → Proc β}
    (h : Woven body Q mode s (z >>= fun a => f a >>= g)) :
    Woven body Q mode s (z >>= f >>= g) :=
  h.congr fun _ => returns_bind_assoc

/-- A loop of the program.  Going around again is compared only later. -/
theorem Woven.loop {inner : α → Proc (α ⊕ γ)} {f : γ → Proc β}
    {I : σ → α → Prop}
    (h : ∀ mode', mode.To mode' → ∀ s a, I s a → ∀ again : α → Proc β,
      (∀ mode'', mode'.Later mode'' → ∀ s' a', I s' a' →
        Woven body Q mode'' s' (again a')) →
      Woven body Q mode' s (inner a >>= fun o =>
        match o with
        | .inl a' => again a'
        | .inr c => f c))
    {a : α} (ha : I s a) : Woven body Q mode s (Proc.loop inner a >>= f) := by
  cases mode with
  | back =>
      -- by the number of times the program goes around
      have key : ∀ n s a, I s a →
          Woven body Q .back s (loopUpTo inner n a >>= f) := by
        intro n
        induction n with
        | zero =>
            intro s a _ b hb
            obtain ⟨c, hc, -⟩ := returns_bind.mp hb
            exact absurd hc not_returns_undefined
        | succ n ih =>
            intro s a ha
            refine Woven.congr ?_ (h .back .back s a ha
              (fun a' => loopUpTo inner n a' >>= f) ?_)
            · intro b
              rw [loopUpTo]
              simp only [returns_bind]
              constructor
              · rintro ⟨o, ho, hb⟩
                cases o with
                | inl a' =>
                    obtain ⟨c, hc, hb⟩ := returns_bind.mp hb
                    exact ⟨c, ⟨.inl a', ho, hc⟩, hb⟩
                | inr c => exact ⟨c, ⟨.inr c, ho, returns_pure_self c⟩, hb⟩
              · rintro ⟨c, ⟨o, ho, hc⟩, hb⟩
                cases o with
                | inl a' => exact ⟨.inl a', ho, hc.bind hb⟩
                | inr c' =>
                    cases returns_pure.mp hc
                    exact ⟨.inr _, ho, hb⟩
            · rintro _ ⟨⟩ s' a' ha'
              exact ih s' a' ha'
      intro b hb
      obtain ⟨c, hc, hb⟩ := returns_bind.mp hb
      obtain ⟨n, hn⟩ := returns_loopUpTo.mp hc
      exact key n s a ha b (hn.bind hb)
  | forth n =>
      -- by the number of iterations that are left
      have key : ∀ m ≤ n, ∀ s a, I s a →
          Woven body Q (.forth m) s (Proc.loop inner a >>= f) := by
        intro m
        induction m using Nat.strongRecOn with
        | ind m ih =>
            intro hm s a ha
            refine Woven.congr (fun b => returns_loop_bind.symm)
              (h (.forth m) (.forth hm) s a ha
                (fun a' => Proc.loop inner a' >>= f) ?_)
            rintro _ (- | @⟨_, k, hk⟩) s' a' ha'
            exact ih k hk (by omega) s' a' ha'
      exact key n (Nat.le_refl n) s a ha

/-- Compared in both directions, the loop and the program agree. -/
theorem agree_of_woven (h : ∀ mode, Woven body Q mode s x) :
    Agree Q (loop body s) x where
  forth r hr := by
    obtain ⟨n, hn⟩ := hr.after
    exact h (.forth (n + 1)) n (Nat.lt_succ_self n) r hn
  back := h .back

end Proc

end Libcad
