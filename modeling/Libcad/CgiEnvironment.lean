/-
The environment of the process after the accessors of the meta variables were
called.
-/
import Libcad.CgiMetaStable
import Libcad.Lifetime

namespace Libcad

open Proc

section

variable {τ : Type} {arith : IntArith} {fns : StreamFns τ}

/-- The other accessors leave the environment and the protocol alone. -/
theorem MetaState.call_env {call : MetaCall} {st next : MetaState τ}
    {report : MetaReport} (hcall : call ≠ .serverProtocol)
    (h : Returns (st.call arith fns call) (report, next)) :
    next.env = st.env ∧
      next.this.serverProtocol = st.this.serverProtocol := by
  refine ⟨?_, (MetaState.call_frame (Ne.symm hcall) h).1⟩
  cases call with
  | authType => cases returns_pure.mp h; rfl
  | contentLength => cases returns_pure.mp h; rfl
  | contentType =>
      obtain ⟨result, -, h⟩ := returns_bind.mp h
      cases returns_pure.mp h
      rfl
  | gatewayInterface =>
      obtain ⟨result, -, -, rfl⟩ := gateway_call.mp h
      rfl
  | string field =>
      obtain ⟨text, -, ⟨-, rfl⟩ | ⟨-, -, rfl⟩⟩ := string_call.mp h <;> rfl
  | queryString =>
      obtain ⟨⟨result, st₁⟩, hresult, h⟩ := returns_bind.mp h
      cases returns_pure.mp h
      obtain ⟨hash, -, hresult⟩ := returns_bind.mp hresult
      cases returns_pure.mp hresult
      rfl
  | inputAsForm =>
      obtain ⟨⟨result, st₁⟩, hresult, h⟩ := returns_bind.mp h
      cases returns_pure.mp h
      obtain ⟨hash, -, hresult⟩ := returns_bind.mp hresult
      cases returns_pure.mp hresult
      rfl
  | serverPort =>
      have heq : (Libcad.serverPort st).2 = next :=
        congrArg Prod.snd (returns_pure.mp h)
      rw [← heq]
      rcases serverPort_eq st with hport | ⟨n, -, hport⟩ <;> rw [hport]
  | serverProtocol => exact absurd rfl hcall

/-- The first call of `server_protocol` cuts its variable. -/
theorem MetaState.call_protocol_env {st next : MetaState τ}
    {report : MetaReport}
    (h : Returns (st.call arith fns .serverProtocol) (report, next)) :
    next.this.serverProtocol.protocol ≠ none ∧
      next.env = if st.this.serverProtocol.protocol = none then
        Function.update st.env "SERVER_PROTOCOL"
          ((st.env "SERVER_PROTOCOL").map beforeSlash)
      else st.env := by
  obtain ⟨⟨result, st₁⟩, hresult, h⟩ := returns_bind.mp h
  cases returns_pure.mp h
  obtain ⟨⟨protocol, value⟩, hparse, hresult⟩ := returns_bind.mp hresult
  cases returns_pure.mp hresult
  obtain ⟨hprotocol, hvalue⟩ := protocolOnce_returns hparse
  refine ⟨hprotocol, ?_⟩
  dsimp only
  split
  next hnone => rw [hvalue, if_pos hnone]
  next hsome => rw [hvalue, if_neg hsome, Function.update_eq_self]

/-- What a sequence of calls does to the environment. -/
theorem lifetime_env (calls : List MetaCall) : ∀ {st st' : MetaState τ}
    {reports : List MetaReport},
    Returns (lifetime (MetaState.call arith fns) pure calls st)
      (reports, st') →
    st'.env =
      if .serverProtocol ∈ calls ∧ st.this.serverProtocol.protocol = none then
        Function.update st.env "SERVER_PROTOCOL"
          ((st.env "SERVER_PROTOCOL").map beforeSlash)
      else st.env := by
  induction calls with
  | nil =>
      intro st st' reports h
      obtain ⟨last, hlast, h⟩ := returns_bind.mp h
      cases returns_pure.mp h
      cases returns_pure.mp hlast
      rw [if_neg fun h => List.not_mem_nil h.1]
  | cons call calls ih =>
      intro st st' reports h
      obtain ⟨⟨report, next⟩, hcall, h⟩ := returns_bind.mp h
      obtain ⟨⟨rest, last⟩, hrest, h⟩ := returns_bind.mp h
      cases returns_pure.mp h
      have henv := ih hrest
      by_cases hprotocol : call = .serverProtocol
      · subst hprotocol
        obtain ⟨hsome, hnext⟩ := MetaState.call_protocol_env hcall
        rw [if_neg fun h => hsome h.2, hnext] at henv
        rw [henv]
        by_cases hnone : st.this.serverProtocol.protocol = none
        · rw [if_pos hnone, if_pos ⟨List.mem_cons_self, hnone⟩]
        · rw [if_neg hnone, if_neg fun h => hnone h.2]
      · obtain ⟨hnext, hsame⟩ := MetaState.call_env hprotocol hcall
        rw [hnext, hsame] at henv
        have hmem : MetaCall.serverProtocol ∈ call :: calls ↔
            .serverProtocol ∈ calls := by
          rw [List.mem_cons]
          exact or_iff_right (Ne.symm hprotocol)
        simpa only [hmem] using henv

theorem beforeSlash_eq_self_iff {text : Bytes} :
    beforeSlash text = text ↔ ascii '/' ∉ text := by
  rw [beforeSlash, List.takeWhile_eq_self_iff]
  constructor
  · intro h hmem
    exact absurd rfl (of_decide_eq_true (h _ hmem))
  · intro h c hc
    exact decide_eq_true fun heq => h (heq ▸ hc)

end

/-- The environment is left alone, and with it what a second response reports,
exactly when nobody asks for the protocol or its variable has no slash. -/
theorem meta_environment_iff {τ : Type} (arith : IntArith)
    (fns : StreamFns τ) (block : MetaImpl τ) (env : Env)
    (input : Option (InputStream τ)) (calls : List MetaCall)
    (reports : List MetaReport) (st : MetaState τ)
    (h : Returns (lifetime (MetaState.call arith fns) pure calls
      ⟨newMeta block env input, env⟩) (reports, st)) :
    (st.env = env ∧ ∀ block' input' calls' reports',
      (∃ st', Returns (lifetime (MetaState.call arith fns) pure calls'
        ⟨newMeta block' st.env input', st.env⟩) (reports', st')) ↔
      ∃ st', Returns (lifetime (MetaState.call arith fns) pure calls'
        ⟨newMeta block' env input', env⟩) (reports', st')) ↔
      .serverProtocol ∈ calls →
        ∀ text, env "SERVER_PROTOCOL" = some text → ascii '/' ∉ text := by
  have henv : st.env = if .serverProtocol ∈ calls ∧
      (newMeta block env input).serverProtocol.protocol = none then
        Function.update env "SERVER_PROTOCOL"
          ((env "SERVER_PROTOCOL").map beforeSlash)
      else env := lifetime_env calls h
  have hnone : (newMeta block env input).serverProtocol.protocol = none := rfl
  have hsame : st.env = env ↔ .serverProtocol ∈ calls →
      ∀ text, env "SERVER_PROTOCOL" = some text → ascii '/' ∉ text := by
    rw [henv]
    by_cases hcall : MetaCall.serverProtocol ∈ calls
    · rw [if_pos ⟨hcall, hnone⟩, Function.update_eq_self_iff]
      cases hvalue : env "SERVER_PROTOCOL" with
      | none => exact iff_of_true rfl fun _ text htext => by cases htext
      | some text =>
          rw [Option.map_some, Option.some.injEq, beforeSlash_eq_self_iff]
          constructor
          · intro hslash _ text' htext
            cases htext
            exact hslash
          · exact fun hslash => hslash hcall text rfl
    · rw [if_neg fun hboth => hcall hboth.1]
      exact iff_of_true rfl fun hmem => absurd hmem hcall
  rw [← hsame]
  constructor
  · exact And.left
  · intro heq
    refine ⟨heq, fun block' input' calls' reports' => ?_⟩
    rw [heq]

/-- A protocol without a slash is left alone. -/
theorem meta_environment_plain :
    ∃ st, Returns (lifetime (MetaState.call intChecked noStreams) pure
        [.serverProtocol]
        (newMetaState (Env.single "SERVER_PROTOCOL" (chars "INCLUDED"))))
        ([.serverProtocol ⟨0, 0, some (chars "INCLUDED")⟩], st) ∧
      st.env = Env.single "SERVER_PROTOCOL" (chars "INCLUDED") := by
  have hrun : Returns (lifetime (MetaState.call intChecked noStreams) pure
      [.serverProtocol]
      (newMetaState (Env.single "SERVER_PROTOCOL" (chars "INCLUDED"))))
      ([.serverProtocol ⟨0, 0, some (chars "INCLUDED")⟩], _) := ⟨0, rfl⟩
  refine ⟨_, hrun, ((meta_environment_iff intChecked noStreams _
    (Env.single "SERVER_PROTOCOL" (chars "INCLUDED")) none [.serverProtocol]
    _ _ hrun).mpr fun _ text htext => ?_).1⟩
  cases htext
  decide

/-- `HTTP/1.1` is version 1.1 for the first response, and version 0.0 for the
second. -/
theorem meta_environment_cut :
    ∃ st st', Returns (lifetime (MetaState.call intChecked noStreams) pure
        [.serverProtocol]
        (newMetaState (Env.single "SERVER_PROTOCOL" (chars "HTTP/1.1"))))
        ([.serverProtocol ⟨1, 1, some (chars "HTTP")⟩], st) ∧
      st.env ≠ Env.single "SERVER_PROTOCOL" (chars "HTTP/1.1") ∧
      Returns (lifetime (MetaState.call intChecked noStreams) pure
        [.serverProtocol] (newMetaState st.env))
        ([.serverProtocol ⟨0, 0, some (chars "HTTP")⟩], st') := by
  refine ⟨_, _, ⟨0, rfl⟩, fun heq => ?_, ⟨0, rfl⟩⟩
  have hvalue := congrFun heq "SERVER_PROTOCOL"
  exact absurd (Option.some.inj hvalue) (by decide)

end Libcad
