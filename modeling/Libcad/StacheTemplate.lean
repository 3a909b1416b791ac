/-
Templates as trees.  `Runs` says what a template comes to when every lookup in
it is accepted: the text it writes, and the template it leaves behind once its
inclusions have been replaced.  The token machine goes through the tokens of
such a template on its first pass, and again whenever a list rewinds over them.
-/
import Libcad.StacheRuns

namespace Libcad

open Proc TokenState

/-- Templates: properly nested sections. -/
inductive Template
  | nil
  | text (c : UInt8) (rest : Template)
  | escaped (name : Bytes) (rest : Template)
  | raw (name : Bytes) (rest : Template)
  | comment (body : Bytes) (rest : Template)
  | loop (type : LoopType) (name : Bytes) (body rest : Template)
  | inclusion (name : Bytes) (rest : Template)
deriving Repr, DecidableEq

namespace Template

def tokens : Template → List Token
  | nil => []
  | text c rest => .text c :: rest.tokens
  | escaped name rest => .escaped name :: rest.tokens
  | raw name rest => .raw name :: rest.tokens
  | comment body rest => .comment body :: rest.tokens
  | loop type name body rest =>
      .opening type name :: (body.tokens ++ .closing name :: rest.tokens)
  | inclusion name rest => .inclusion name :: rest.tokens

def append : Template → Template → Template
  | nil, other => other
  | text c rest, other => text c (rest.append other)
  | escaped name rest, other => escaped name (rest.append other)
  | raw name rest, other => raw name (rest.append other)
  | comment body rest, other => comment body (rest.append other)
  | loop type name body rest, other => loop type name body (rest.append other)
  | inclusion name rest, other => inclusion name (rest.append other)

theorem tokens_append (a b : Template) :
    (a.append b).tokens = a.tokens ++ b.tokens := by
  induction a with
  | nil => rfl
  | text c rest ih => simp only [append, tokens, ih, List.cons_append]
  | escaped name rest ih => simp only [append, tokens, ih, List.cons_append]
  | raw name rest ih => simp only [append, tokens, ih, List.cons_append]
  | comment body rest ih => simp only [append, tokens, ih, List.cons_append]
  | loop type name body rest _ ih =>
      simp only [append, tokens, ih, List.cons_append, List.append_assoc]
  | inclusion name rest ih => simp only [append, tokens, ih, List.cons_append]

theorem tokens_ne_nil {template : Template} (h : template ≠ .nil) :
    template.tokens ≠ [] := by
  cases template with
  | nil => exact absurd rfl h
  | _ => exact List.cons_ne_nil _ _

def Plain (template : Template) : Prop :=
  ∀ tok ∈ template.tokens, tok.includes = false

instance (template : Template) : Decidable template.Plain :=
  inferInstanceAs (Decidable (∀ tok ∈ template.tokens, tok.includes = false))

end Template

def LoopType.hides (type : LoopType) (empty : Bool) : Bool :=
  match type with
  | .loopWhile => empty
  | .loopElse => !empty

variable {τ : Type}

/-- What a variable shows: nothing, or a string that can be released. -/
def Answer.Shows : Answer τ → Bytes → Prop
  | .notFound, shown => shown = []
  | .string (some (some c)) (some true), shown => shown = cString c
  | _, _ => False

/-- For the open list sections, a template whose lookups are all accepted comes
to a template without inclusions and to the text that is written. -/
inductive Runs (fns : StreamFns τ) (answers : Answers τ)
    (inclusions : Inclusions) :
    List Frame → Template → Template → Bytes → Prop
  | nil {frames} : Runs fns answers inclusions frames .nil .nil []
  | text {frames rest rest' out} (c : UInt8) :
      Runs fns answers inclusions frames rest rest' out →
      Runs fns answers inclusions frames (.text c rest) (.text c rest')
        (c :: out)
  | escaped {frames rest rest' out shown} (name : Bytes) :
      (answers frames name).Shows shown →
      Runs fns answers inclusions frames rest rest' out →
      Runs fns answers inclusions frames (.escaped name rest)
        (.escaped name rest') (shown.flatMap escapeChar ++ out)
  | raw {frames rest rest' out shown} (name : Bytes) :
      (answers frames name).Shows shown →
      Runs fns answers inclusions frames rest rest' out →
      Runs fns answers inclusions frames (.raw name rest) (.raw name rest')
        (shown ++ out)
  | comment {frames rest rest' out} (body : Bytes) :
      Runs fns answers inclusions frames rest rest' out →
      Runs fns answers inclusions frames (.comment body rest)
        (.comment body rest') out
  | plain {frames body body' rest rest' text out empty} (type : LoopType)
      (name : Bytes) :
      (answers frames name).opened fns = ⟨true, empty, none⟩ →
      Runs fns answers inclusions frames body body' text →
      Runs fns answers inclusions frames rest rest' out →
      Runs fns answers inclusions frames (.loop type name body rest)
        (.loop type name body' rest')
        ((if type.hides empty then [] else text) ++ out)
  | inverted {frames body body' rest rest' text out get} (name : Bytes) :
      answers frames name = .list get (some true) →
      Runs fns answers inclusions (⟨name, 0⟩ :: frames) body body' text →
      Runs fns answers inclusions frames rest rest' out →
      Runs fns answers inclusions frames (.loop .loopElse name body rest)
        (.loop .loopElse name body' rest')
        ((if (get.map (· 0)).getD false then [] else text) ++ out)
  | list {frames body body' rest rest' out get} (name : Bytes) (n : Nat)
      (texts : Nat → Bytes) :
      answers frames name = .list (some get) (some true) →
      (∀ i : Nat, 0 < i → i ≤ n → get i = true) → get (n + 1 : Nat) = false →
      Runs fns answers inclusions (⟨name, 0⟩ :: frames) body body' (texts 0) →
      (∀ i : Nat, 0 < i → i ≤ n →
        Runs fns answers inclusions (⟨name, i⟩ :: frames) body' body'
          (texts i)) →
      Runs fns answers inclusions frames rest rest' out →
      Runs fns answers inclusions frames (.loop .loopWhile name body rest)
        (.loop .loopWhile name body' rest')
        ((if get 0 then (List.range (n + 1)).flatMap texts else []) ++ out)
  | found {frames content content' rest rest' text out} (name : Bytes) :
      inclusions name = some (.found content.tokens) →
      Runs fns answers inclusions frames content content' text →
      Runs fns answers inclusions frames rest rest' out →
      Runs fns answers inclusions frames (.inclusion name rest)
        (content'.append rest') (text ++ out)
  | missing {frames rest rest' out} (name : Bytes) (c : UInt8) :
      inclusions name = some .missing →
      Runs fns answers inclusions frames rest rest' out →
      Runs fns answers inclusions frames (.inclusion name (.text c rest))
        rest' out

section

variable {fns : StreamFns τ} {answers : Answers τ} {inclusions : Inclusions}
  {frames : List Frame} {template left : Template} {out : Bytes}

theorem plain_cons {tok : Token} {toks : List Token}
    (htok : tok.includes = false)
    (htoks : ∀ x ∈ toks, Token.includes x = false) :
    ∀ x ∈ tok :: toks, Token.includes x = false :=
  List.forall_mem_cons.mpr ⟨htok, htoks⟩

theorem plain_append {a b : List Token}
    (ha : ∀ x ∈ a, Token.includes x = false)
    (hb : ∀ x ∈ b, Token.includes x = false) :
    ∀ x ∈ a ++ b, Token.includes x = false :=
  List.forall_mem_append.mpr ⟨ha, hb⟩

theorem Runs.left_plain
    (h : Runs fns answers inclusions frames template left out) :
    left.Plain := by
  induction h with
  | nil => exact fun _ h => absurd h List.not_mem_nil
  | text c _ ih => exact plain_cons rfl ih
  | escaped name _ _ ih => exact plain_cons rfl ih
  | raw name _ _ ih => exact plain_cons rfl ih
  | comment body _ ih => exact plain_cons rfl ih
  | plain type name _ _ _ ihb ihr =>
      exact plain_cons rfl (plain_append ihb (plain_cons rfl ihr))
  | inverted name _ _ _ ihb ihr =>
      exact plain_cons rfl (plain_append ihb (plain_cons rfl ihr))
  | list name n texts _ _ _ _ _ _ ihb _ ihr =>
      exact plain_cons rfl (plain_append ihb (plain_cons rfl ihr))
  | found name _ _ _ ihc ihr =>
      rw [Template.Plain, Template.tokens_append]
      exact plain_append ihc ihr
  | missing name c _ _ ih => exact ih

/-- A template without inclusions is left as it is. -/
theorem Runs.left_eq
    (h : Runs fns answers inclusions frames template left out)
    (hplain : template.Plain) : left = template := by
  have hcons : ∀ {tok : Token} {toks : List Token},
      (∀ x ∈ tok :: toks, Token.includes x = false) →
      tok.includes = false ∧ ∀ x ∈ toks, Token.includes x = false :=
    fun h => List.forall_mem_cons.mp h
  have hbody : ∀ {type name body rest},
      (Template.loop type name body rest).Plain → body.Plain ∧ rest.Plain := by
    intro type name body rest h
    obtain ⟨hb, hr⟩ := List.forall_mem_append.mp (hcons h).2
    exact ⟨hb, (hcons hr).2⟩
  induction h with
  | nil => rfl
  | text c _ ih => rw [ih (hcons hplain).2]
  | escaped name _ _ ih => rw [ih (hcons hplain).2]
  | raw name _ _ ih => rw [ih (hcons hplain).2]
  | comment body _ ih => rw [ih (hcons hplain).2]
  | plain type name _ _ _ ihb ihr =>
      rw [ihb (hbody hplain).1, ihr (hbody hplain).2]
  | inverted name _ _ _ ihb ihr =>
      rw [ihb (hbody hplain).1, ihr (hbody hplain).2]
  | list name n texts _ _ _ _ _ _ ihb _ ihr =>
      rw [ihb (hbody hplain).1, ihr (hbody hplain).2]
  | found name _ _ _ _ _ => cases (hcons hplain).1
  | missing name c _ _ _ => cases (hcons hplain).1

end

def TokenState.between (pre rest : List Token) (frontier : Nat)
    (loops : List TokenLoop) (out : Bytes) : TokenState :=
  { toks := pre ++ rest, frontier := frontier, pos := pre.length,
    loops := loops, out := out }

/-- What is written of a text under the open sections. -/
def shown (loops : List TokenLoop) (text : Bytes) : Bytes :=
  if loops.any TokenLoop.skips then [] else text

theorem shown_nil (loops : List TokenLoop) : shown loops [] = [] := by
  rw [shown, ite_self]

theorem shown_append (loops : List TokenLoop) (a b : Bytes) :
    shown loops (a ++ b) = shown loops a ++ shown loops b := by
  simp only [shown]
  split <;> rfl

theorem shown_cons (m : TokenLoop) (loops : List TokenLoop) (text : Bytes) :
    shown (m :: loops) text =
      shown loops (if m.type.hides m.empty then [] else text) := by
  have hskips : m.skips = m.type.hides m.empty := rfl
  simp only [shown, List.any_cons, hskips]
  cases m.type.hides m.empty <;> simp

section

variable {fns : StreamFns τ} {answers : Answers τ} {inclusions : Inclusions}
  {frames : List Frame} {template left : Template} {out : Bytes}
  {pre rest more : List Token} {f : Nat} {loops : List TokenLoop}
  {acc : Bytes} {tok : Token}

theorem write_between (text : Bytes) :
    (between pre rest f loops acc).write text =
      between pre rest f loops (acc ++ shown loops text) := by
  rw [write_out, between, between, shown, TokenState.skips]
  split
  · simp only [List.append_nil]
  · rfl

theorem between_tok :
    (between pre (tok :: rest) f loops acc).toks[
      (between pre (tok :: rest) f loops acc).pos]? = some tok := by
  change (pre ++ tok :: rest)[pre.length]? = some tok
  rw [List.getElem?_append_right (Nat.le_refl _), Nat.sub_self]
  rfl

theorem step_between (hf : f < (pre ++ tok :: rest).length)
    (hplain : tok.includes = false) :
    (between pre (tok :: rest) f loops acc).step fns answers inclusions =
      (between (pre ++ [tok]) rest (max f (pre ++ [tok]).length) loops
        acc).exec fns answers inclusions tok := by
  have hadvance : (between pre (tok :: rest) f loops acc).advance =
      between (pre ++ [tok]) rest (max f (pre ++ [tok]).length) loops acc := by
    simp only [advance, between, List.length_append, List.length_cons,
      List.length_nil, List.append_assoc, List.cons_append, List.nil_append]
  rw [step_live between_tok (Nat.ne_of_lt hf), hplain,
    if_neg Bool.false_ne_true, hadvance]

theorem step_inclusion_between {name : Bytes} :
    (between pre (.inclusion name :: rest) pre.length loops acc).step fns
        answers inclusions =
      (between pre (.inclusion name :: rest) pre.length loops acc).enter
        (inclusions name) := by
  have hlive : pre.length ≠ (pre ++ Token.inclusion name :: rest).length := by
    rw [List.length_append, List.length_cons]
    omega
  rw [step_live between_tok hlive]
  rfl

theorem reaches_text (hf : f < (pre ++ .text c :: rest).length) :
    Reaches (step fns answers inclusions)
      (between pre (.text c :: rest) f loops acc)
      (between (pre ++ [.text c]) rest (max f (pre ++ [Token.text c]).length)
        loops (acc ++ shown loops [c])) := by
  apply Reaches.step
  rw [step_between hf rfl, ← write_between]
  exact returns_pure_self _

theorem reaches_comment {body : Bytes}
    (hf : f < (pre ++ .comment body :: rest).length) :
    Reaches (step fns answers inclusions)
      (between pre (.comment body :: rest) f loops acc)
      (between (pre ++ [.comment body]) rest
        (max f (pre ++ [Token.comment body]).length) loops acc) := by
  apply Reaches.step
  rw [step_between hf rfl]
  exact returns_pure_self _

theorem returns_writeVariable {t : TokenState} {answer : Answer τ}
    {text : Bytes} (h : answer.Shows text)
    {write : TokenState → Option Bytes → Proc TokenState}
    (convert : Bytes → Bytes) (hnil : convert [] = [])
    (hwrite : ∀ c, Returns (write t (some c)) (t.write (convert (cString c)))) :
    Returns (t.writeVariable answer write) (.inl (t.write (convert text))) := by
  cases answer with
  | notFound =>
      have htext : text = [] := h
      rw [htext, hnil, write_nil]
      exact returns_pure_self _
  | list get close => exact h.elim
  | stream get free => exact h.elim
  | invalid => exact h.elim
  | string get free =>
      match get, free, h with
      | some (some c), some true, htext =>
          have htext : text = cString c := htext
          rw [htext]
          exact (hwrite c).bind (returns_pure_self _)

theorem reaches_escaped {name text : Bytes}
    (hf : f < (pre ++ .escaped name :: rest).length)
    (h : (answers (framesOf loops) name).Shows text) :
    Reaches (step fns answers inclusions)
      (between pre (.escaped name :: rest) f loops acc)
      (between (pre ++ [.escaped name]) rest
        (max f (pre ++ [Token.escaped name]).length) loops
        (acc ++ shown loops (text.flatMap escapeChar))) := by
  apply Reaches.step
  rw [step_between hf rfl, ← write_between]
  exact returns_writeVariable h (fun s => s.flatMap escapeChar) rfl
    fun c => returns_pure_self _

theorem reaches_raw {name text : Bytes}
    (hf : f < (pre ++ .raw name :: rest).length)
    (h : (answers (framesOf loops) name).Shows text) :
    Reaches (step fns answers inclusions)
      (between pre (.raw name :: rest) f loops acc)
      (between (pre ++ [.raw name]) rest
        (max f (pre ++ [Token.raw name]).length) loops
        (acc ++ shown loops text)) := by
  apply Reaches.step
  rw [step_between hf rfl, ← write_between]
  refine returns_writeVariable h id rfl fun c => ?_
  rw [TokenState.writeRaw, id, TokenState.write]
  split <;> exact returns_pure_self _

/-- The section an opening tag leads into. -/
def entered (type : LoopType) (name : Bytes)
    (list : Option (Option (Int → Bool) × Option Bool)) (pre : List Token)
    (index : Int) (empty : Bool) : TokenLoop :=
  { type := type, name := name, list := list,
    mark := (pre ++ [Token.opening type name]).length, index := index,
    empty := empty }

theorem reaches_opening {type : LoopType} {name : Bytes} {empty : Bool}
    {list : Option (Option (Int → Bool) × Option Bool)}
    (hf : f < (pre ++ .opening type name :: rest).length)
    (h : (answers (framesOf loops) name).opened fns = ⟨true, empty, list⟩) :
    Reaches (step fns answers inclusions)
      (between pre (.opening type name :: rest) f loops acc)
      (between (pre ++ [.opening type name]) rest
        (max f (pre ++ [Token.opening type name]).length)
        (entered type name list pre 0 empty :: loops) acc) := by
  apply Reaches.step
  rw [step_between hf rfl]
  apply returns_pure.mpr
  simp only [openSection, between, h, goOn, if_true, entered]

theorem reaches_closing {name : Bytes} {m : TokenLoop}
    (hf : f < (pre ++ .closing name :: rest).length) (hname : m.name = name)
    (hlist : m.list = none) :
    Reaches (step fns answers inclusions)
      (between pre (.closing name :: rest) f (m :: loops) acc)
      (between (pre ++ [.closing name]) rest
        (max f (pre ++ [Token.closing name]).length) loops acc) := by
  apply Reaches.step
  rw [step_between hf rfl]
  change Returns (closeSection _ name) _
  rw [closeSection.eq_def]
  simp only [between, hname, ne_eq, not_true_eq_false, if_false, hlist]
  exact returns_pure_self _

theorem reaches_closed {name : Bytes} {m : TokenLoop}
    {get : Option (Int → Bool)}
    (hf : f < (pre ++ .closing name :: rest).length) (hname : m.name = name)
    (hlist : m.list = some (get, some true))
    (hlast : Returns (nextItem get m.next.index m.type) false) :
    Reaches (step fns answers inclusions)
      (between pre (.closing name :: rest) f (m :: loops) acc)
      (between (pre ++ [.closing name]) rest
        (max f (pre ++ [Token.closing name]).length) loops acc) := by
  apply Reaches.step
  rw [step_between hf rfl]
  change Returns (closeSection _ name) _
  rw [closeSection.eq_def]
  simp only [between, hname, ne_eq, not_true_eq_false, if_false, hlist]
  exact hlast.bind (returns_pure_self _)

theorem reaches_again {body : List Token} {name : Bytes} {m : TokenLoop}
    {get : Option (Int → Bool)}
    (hf : f < (pre ++ (body ++ .closing name :: rest)).length)
    (hname : m.name = name) (hmark : m.mark = pre.length)
    (hlist : m.list = some (get, some true))
    (hfound : Returns (nextItem get m.next.index m.type) true) :
    Reaches (step fns answers inclusions)
      (between (pre ++ body) (.closing name :: rest) f (m :: loops) acc)
      (between pre (body ++ .closing name :: rest)
        (max f (pre ++ body ++ [Token.closing name]).length)
        (m.next :: loops) acc) := by
  rw [← List.append_assoc] at hf
  apply Reaches.step
  rw [step_between hf rfl]
  change Returns (closeSection _ name) _
  rw [closeSection.eq_def]
  simp only [between, hname, ne_eq, not_true_eq_false, if_false, hlist]
  apply hfound.bind
  apply returns_pure.mpr
  simp only [hmark, List.append_assoc, List.cons_append,
    List.nil_append]

theorem reaches_found {name : Bytes} {content : List Token}
    (hrest : rest ≠ []) (h : inclusions name = some (.found content)) :
    Reaches (step fns answers inclusions)
      (between pre (.inclusion name :: rest) pre.length loops acc)
      (between pre (content ++ rest) pre.length loops acc) := by
  have hpos := List.length_pos_iff.mpr hrest
  have hmore : ¬ pre.length + 1 = (pre ++ Token.inclusion name :: rest).length
      := by
    rw [List.length_append, List.length_cons]
    omega
  apply Reaches.step
  rw [step_inclusion_between, h, enter]
  simp only [between, hmore, if_false, List.take_left, List.append_assoc,
    List.drop_length_add_append, List.drop_succ_cons, List.drop_zero]
  exact returns_pure_self _

theorem reaches_missing {name : Bytes} {c : UInt8}
    (h : inclusions name = some .missing) :
    Reaches (step fns answers inclusions)
      (between pre (.inclusion name :: .text c :: rest) pre.length loops acc)
      (between pre rest pre.length loops acc) := by
  have hmore : ¬ pre.length + 1 =
      (pre ++ Token.inclusion name :: .text c :: rest).length := by
    simp only [List.length_append, List.length_cons]
    omega
  have hget : (pre ++ Token.inclusion name :: .text c :: rest)[
      pre.length + 1]? = some (.text c) := by
    rw [List.getElem?_append_right (show pre.length ≤ pre.length + 1 by omega),
      Nat.add_sub_cancel_left]
    rfl
  apply Reaches.step
  rw [step_inclusion_between, h, enter]
  simp only [between, hmore, if_false, hget, List.take_left,
    List.drop_length_add_append, List.drop_succ_cons, List.drop_zero]
  exact returns_pure_self _

/-- The frontier when the machine comes to some tokens: on the first pass it is
where the machine is, and later there are no inclusions left to meet. -/
def Fits (f : Nat) (pre toks more : List Token) : Prop :=
  f = pre.length ∨ (∀ x ∈ toks, Token.includes x = false) ∧ pre.length ≤ f ∧
    f < pre.length + toks.length + more.length

variable {toks a a' b b' : List Token}

theorem Fits.le (h : Fits f pre toks more) : pre.length ≤ f := by
  rcases h with rfl | ⟨-, h, -⟩
  · exact Nat.le_refl _
  · exact h

theorem Fits.lt (h : Fits f pre toks more) (hne : toks ++ more ≠ []) :
    f < (pre ++ (toks ++ more)).length := by
  have hpos := List.length_pos_iff.mpr hne
  rw [List.length_append] at hpos ⊢
  rw [List.length_append]
  rcases h with h | ⟨-, -, h⟩ <;> omega

theorem Fits.before (h : Fits f pre (a ++ b) more) : Fits f pre a (b ++ more) := by
  rcases h with h | ⟨hplain, hle, hlt⟩
  · exact Or.inl h
  · rw [List.length_append] at hlt
    refine Or.inr ⟨(List.forall_mem_append.mp hplain).1, hle, ?_⟩
    rw [List.length_append]
    omega

/-- Past the first tokens, which have become `a'`. -/
theorem Fits.after (h : Fits f pre (a ++ b) more)
    (ha : (∀ x ∈ a, Token.includes x = false) → a' = a) :
    Fits (max f (pre ++ a').length) (pre ++ a') b more := by
  rcases h with h | ⟨hplain, hle, hlt⟩
  · left
    rw [List.length_append]
    omega
  · obtain ⟨hplaina, hplainb⟩ := List.forall_mem_append.mp hplain
    rw [ha hplaina, List.length_append]
    rw [List.length_append] at hlt
    rcases Nat.le_total f (pre.length + a.length) with hold | hnew
    · left
      rw [List.length_append]
      omega
    · right
      refine ⟨hplainb, ?_⟩
      rw [List.length_append]
      omega

/-- The machine goes through some tokens, which become `left`. -/
abbrev Passes (fns : StreamFns τ) (answers : Answers τ)
    (inclusions : Inclusions) (pre toks left more : List Token) (f : Nat)
    (loops : List TokenLoop) (acc : Bytes) (loops' : List TokenLoop)
    (acc' : Bytes) : Prop :=
  Reaches (step fns answers inclusions)
    (between pre (toks ++ more) f loops acc)
    (between (pre ++ left) more (max f (pre ++ left).length) loops' acc')

theorem Passes.append {loops' loops'' : List TokenLoop} {acc' acc'' : Bytes}
    (ha : Passes fns answers inclusions pre a a' (b ++ more) f loops acc
      loops' acc')
    (hb : Passes fns answers inclusions (pre ++ a') b b' more
      (max f (pre ++ a').length) loops' acc' loops'' acc'') :
    Passes fns answers inclusions pre (a ++ b) (a' ++ b') more f loops acc
      loops'' acc'' := by
  have hmax : max (max f (pre ++ a').length) (pre ++ a' ++ b').length =
      max f (pre ++ (a' ++ b')).length := by
    simp only [List.length_append]
    omega
  rw [Passes, hmax, List.append_assoc] at hb
  rw [Passes, List.append_assoc]
  exact ha.trans hb

def TokenLoop.at (m : TokenLoop) (i : Nat) : TokenLoop :=
  { m with index := i }

theorem shown_at (m : TokenLoop) (i : Nat) (text : Bytes) :
    shown (m.at i :: loops) text = shown (m :: loops) text := by
  rw [shown_cons, shown_cons]
  rfl

/-- The further items of a list: what the body has become is gone through
again for each of them. -/
theorem reaches_items {m : TokenLoop} {name : Bytes} {get : Int → Bool}
    {body : List Token} {n : Nat} {texts : Nat → Bytes} (hmore : more ≠ [])
    (hname : m.name = name) (hmark : m.mark = pre.length)
    (htype : m.type = .loopWhile) (hlist : m.list = some (some get, some true))
    (hbody : ∀ x ∈ body, Token.includes x = false)
    (hget : ∀ i : Nat, 0 < i → i ≤ n → get i = true)
    (hle : (pre ++ body).length ≤ f)
    (hlt : f < (pre ++ body ++ .closing name :: more).length)
    (hitems : ∀ i : Nat, 0 < i → i ≤ n → ∀ f acc,
      Fits f pre body (.closing name :: more) →
      Passes fns answers inclusions pre body body (.closing name :: more) f
        (m.at i :: loops) acc (m.at i :: loops)
        (acc ++ shown (m :: loops) (texts i))) :
    ∀ i ≤ n, ∃ f', f ≤ f' ∧
      f' ≤ max f (pre ++ body ++ [Token.closing name]).length ∧
      Reaches (step fns answers inclusions)
        (between (pre ++ body) (.closing name :: more) f (m.at 0 :: loops) acc)
        (between (pre ++ body) (.closing name :: more) f' (m.at i :: loops)
          (acc ++ shown (m :: loops)
            ((List.range i).flatMap fun j => texts (j + 1)))) := by
  have hpos := List.length_pos_iff.mpr hmore
  intro i
  induction i with
  | zero =>
      intro _
      refine ⟨f, Nat.le_refl _, Nat.le_max_left _ _, ?_⟩
      rw [List.range_zero, List.flatMap_nil, shown_nil, List.append_nil]
      exact Reaches.refl _
  | succ i ih =>
      intro hi
      obtain ⟨f', hff', hf'f, hreach⟩ := ih (by omega)
      simp only [List.length_append, List.length_cons, List.length_nil]
        at hle hlt hf'f
      have hlt' : f' < (pre ++ (body ++ .closing name :: more)).length := by
        simp only [List.length_append, List.length_cons]
        omega
      have hfound : Returns
          (nextItem (some get) (m.at i).next.index (m.at i).type) true := by
        change Returns (nextItem (some get) (m.at i).next.index m.type) true
        rw [htype]
        exact returns_pure.mpr (hget (i + 1) (Nat.succ_pos i) hi)
      let acc' := acc ++ shown (m :: loops)
        ((List.range i).flatMap fun j => texts (j + 1))
      have hagain : Reaches (step fns answers inclusions)
          (between (pre ++ body) (.closing name :: more) f' (m.at i :: loops)
            acc')
          (between pre (body ++ .closing name :: more)
            (max f' (pre ++ body ++ [Token.closing name]).length)
            (m.at (i + 1) :: loops) acc') :=
        reaches_again hlt' (show (m.at i).name = name from hname) hmark hlist
          hfound
      have hfits : Fits (max f' (pre ++ body ++ [Token.closing name]).length)
          pre body (.closing name :: more) := by
        refine Or.inr ⟨hbody, ?_, ?_⟩
        · simp only [List.length_append, List.length_cons, List.length_nil]
          omega
        · simp only [List.length_append, List.length_cons, List.length_nil]
          omega
      have hpass := hitems (i + 1) (Nat.succ_pos i) hi _ acc' hfits
      have hacc : acc ++ shown (m :: loops)
          ((List.range (i + 1)).flatMap fun j => texts (j + 1)) =
          acc' ++ shown (m :: loops) (texts (i + 1)) := by
        rw [List.range_succ, List.flatMap_append, shown_append,
          List.flatMap_singleton, ← List.append_assoc]
      rw [hacc]
      refine ⟨_, ?_, ?_, (hreach.trans hagain).trans hpass⟩
      · exact Nat.le_trans hff' (Nat.le_trans (Nat.le_max_left _ _)
          (Nat.le_max_left _ _))
      · simp only [List.length_append, List.length_cons, List.length_nil]
        omega

theorem Passes.cons {loops' loops'' : List TokenLoop} {acc' acc'' : Bytes}
    (hstep : Reaches (step fns answers inclusions)
      (between pre (tok :: (toks ++ more)) f loops acc)
      (between (pre ++ [tok]) (toks ++ more) (max f (pre ++ [tok]).length)
        loops' acc'))
    (hrest : Passes fns answers inclusions (pre ++ [tok]) toks b' more
      (max f (pre ++ [tok]).length) loops' acc' loops'' acc'') :
    Passes fns answers inclusions pre (tok :: toks) (tok :: b') more f loops
      acc loops'' acc'' := by
  have hhead : Passes fns answers inclusions pre [tok] [tok] (toks ++ more) f
      loops acc loops' acc' := hstep
  exact hhead.append hrest

theorem Fits.tail (h : Fits f pre (tok :: toks) more) :
    Fits (max f (pre ++ [tok]).length) (pre ++ [tok]) toks more :=
  Fits.after (a := [tok]) h fun _ => rfl

theorem Fits.head_lt (h : Fits f pre (tok :: toks) more) :
    f < (pre ++ tok :: (toks ++ more)).length :=
  h.lt (List.cons_ne_nil _ _)

theorem framesOf_list {m : TokenLoop}
    {list : Option (Int → Bool) × Option Bool} (h : m.list = some list)
    (loops : List TokenLoop) :
    framesOf (m :: loops) = ⟨m.name, m.index⟩ :: framesOf loops := by
  rw [framesOf, List.filterMap_cons_some (b := ⟨m.name, m.index⟩)]
  · rfl
  · rw [h]
    rfl

theorem framesOf_plain {m : TokenLoop} (h : m.list = none)
    (loops : List TokenLoop) : framesOf (m :: loops) = framesOf loops := by
  rw [framesOf, List.filterMap_cons_none]
  · rfl
  · rw [h]
    rfl

/-- A section: its opening tag, its body and what closes it. -/
theorem passes_section {type : LoopType} {name : Bytes} {m : TokenLoop}
    {body body' : List Token} {acc₁ acc₂ acc₃ : Bytes}
    (hfits : Fits f pre (.opening type name :: (body ++ .closing name :: a)) more)
    (heq : (∀ x ∈ body, Token.includes x = false) → body' = body)
    (hopen : f < (pre ++ .opening type name ::
        (body ++ .closing name :: a ++ more)).length →
      Reaches (step fns answers inclusions)
        (between pre (.opening type name :: (body ++ .closing name :: a ++ more))
          f loops acc)
        (between (pre ++ [.opening type name]) (body ++ .closing name :: a ++ more)
          (max f (pre ++ [Token.opening type name]).length) (m :: loops) acc))
    (hbody : ∀ f, Fits f (pre ++ [.opening type name]) body
        (.closing name :: (a ++ more)) →
      Passes fns answers inclusions (pre ++ [.opening type name]) body body'
        (.closing name :: (a ++ more)) f (m :: loops) acc (m :: loops) acc₁)
    (hclose : ∀ f, Fits f (pre ++ [.opening type name] ++ body')
        (.closing name :: a) more →
      Reaches (step fns answers inclusions)
        (between (pre ++ [.opening type name] ++ body')
          (.closing name :: (a ++ more)) f (m :: loops) acc₁)
        (between (pre ++ [.opening type name] ++ body' ++ [.closing name])
          (a ++ more)
          (max f (pre ++ [Token.opening type name] ++ body' ++
            [Token.closing name]).length) loops acc₂))
    (hrest : ∀ f, Fits f
        (pre ++ [.opening type name] ++ body' ++ [.closing name]) a more →
      Passes fns answers inclusions
        (pre ++ [.opening type name] ++ body' ++ [.closing name]) a a' more f
        loops acc₂ loops acc₃) :
    Passes fns answers inclusions pre
      (.opening type name :: (body ++ .closing name :: a))
      (.opening type name :: (body' ++ .closing name :: a')) more f loops acc
      loops acc₃ := by
  have hfits₁ := hfits.tail
  have hfits₂ := hfits₁.after heq
  apply Passes.cons (hopen hfits.head_lt)
  apply Passes.append (hbody _ hfits₁.before)
  exact Passes.cons (hclose _ hfits₂) (hrest _ hfits₂.tail)

/-- The machine goes through a template whose lookups are all accepted. -/
theorem Runs.passes
    (h : Runs fns answers inclusions frames template left out) :
    ∀ {pre more : List Token} {f : Nat} {loops : List TokenLoop} {acc : Bytes},
      framesOf loops = frames → more ≠ [] → Fits f pre template.tokens more →
      Passes fns answers inclusions pre template.tokens left.tokens more f
        loops acc loops (acc ++ shown loops out) := by
  induction h with
  | nil =>
      intro pre more f loops acc _ _ hfits
      have hle := hfits.le
      rw [Passes, shown_nil, List.append_nil, Template.tokens, List.append_nil,
        Nat.max_eq_left hle]
      exact Reaches.refl _
  | text c _ ih =>
      intro pre more f loops acc hframes hmore hfits
      rw [← List.singleton_append, shown_append, ← List.append_assoc]
      exact Passes.cons (reaches_text hfits.head_lt)
        (ih hframes hmore hfits.tail)
  | escaped name hshows _ ih =>
      intro pre more f loops acc hframes hmore hfits
      rw [shown_append, ← List.append_assoc]
      exact Passes.cons
        (reaches_escaped hfits.head_lt (hframes.symm ▸ hshows))
        (ih hframes hmore hfits.tail)
  | raw name hshows _ ih =>
      intro pre more f loops acc hframes hmore hfits
      rw [shown_append, ← List.append_assoc]
      exact Passes.cons (reaches_raw hfits.head_lt (hframes.symm ▸ hshows))
        (ih hframes hmore hfits.tail)
  | comment body _ ih =>
      intro pre more f loops acc hframes hmore hfits
      exact Passes.cons (reaches_comment hfits.head_lt)
        (ih hframes hmore hfits.tail)
  | @plain frames body body' rest rest' text out empty type name hopened hb _
      ihb ihr =>
      intro pre more f loops acc hframes hmore hfits
      let m := entered type name none pre 0 empty
      have hm : framesOf (m :: loops) = frames :=
        (framesOf_plain rfl loops).trans hframes
      have htext : shown (m :: loops) text =
          shown loops (if type.hides empty then [] else text) :=
        shown_cons m loops text
      rw [shown_append, ← List.append_assoc, ← htext]
      rw [← hframes] at hopened
      exact passes_section hfits
        (fun hplain => congrArg Template.tokens (hb.left_eq hplain))
        (fun hlt => reaches_opening hlt hopened)
        (fun f hf => ihb hm (List.cons_ne_nil _ _) hf)
        (fun f hf => reaches_closing hf.head_lt rfl rfl)
        (fun f hf => ihr hframes hmore hf)
  | @inverted frames body body' rest rest' text out get name hanswer hb _
      ihb ihr =>
      intro pre more f loops acc hframes hmore hfits
      let empty := !(get.map (· 0)).getD false
      let m := entered .loopElse name (some (get, some true)) pre 0 empty
      have hm : framesOf (m :: loops) = ⟨name, 0⟩ :: frames := by
        rw [framesOf_list (m := m) rfl, hframes]
        rfl
      have htext : shown (m :: loops) text = shown loops
          (if (get.map (· 0)).getD false then [] else text) := by
        rw [shown_cons]
        simp only [m, entered, LoopType.hides, empty, Bool.not_not]
      rw [shown_append, ← List.append_assoc, ← htext]
      have hopened : (answers (framesOf loops) name).opened fns =
          ⟨true, empty, some (get, some true)⟩ := by
        rw [hframes, hanswer]
        rfl
      exact passes_section hfits
        (fun hplain => congrArg Template.tokens (hb.left_eq hplain))
        (fun hlt => reaches_opening hlt hopened)
        (fun f hf => ihb hm (List.cons_ne_nil _ _) hf)
        (fun f hf => reaches_closed hf.head_lt rfl rfl (returns_pure_self _))
        (fun f hf => ihr hframes hmore hf)
  | @list frames body body' rest rest' out get name n texts hanswer hget hlast
      hb hbs _ ihb ihbs ihr =>
      intro pre more f loops acc hframes hmore hfits
      let m := entered .loopWhile name (some (some get, some true)) pre 0
        (!get 0)
      have hm : ∀ i : Nat,
          framesOf (m.at i :: loops) = ⟨name, i⟩ :: frames := by
        intro i
        rw [framesOf_list (m := m.at i) rfl, hframes]
        rfl
      have htexts : shown (m :: loops) (texts 0) ++ shown (m :: loops)
            ((List.range n).flatMap fun j => texts (j + 1)) =
          shown loops (if get 0 then (List.range (n + 1)).flatMap texts
            else []) := by
        rw [← shown_append, shown_cons, List.range_succ_eq_map,
          List.flatMap_cons, List.flatMap_map]
        simp only [m, entered, LoopType.hides]
        cases get 0 <;> rfl
      rw [shown_append, ← List.append_assoc, ← htexts, ← List.append_assoc]
      have hopened : (answers (framesOf loops) name).opened fns =
          ⟨true, !get 0, some (some get, some true)⟩ := by
        rw [hframes, hanswer]
        rfl
      refine passes_section hfits
        (fun hplain => congrArg Template.tokens (hb.left_eq hplain))
        (fun hlt => reaches_opening hlt hopened)
        (fun f hf => ihb (hm 0) (List.cons_ne_nil _ _) hf)
        (fun f hf => ?_)
        (fun f hf => ihr hframes hmore hf)
      -- The list rewinds over what the body has become, then is closed.
      have hitems : ∀ i : Nat, 0 < i → i ≤ n → ∀ f acc,
          Fits f (pre ++ [.opening .loopWhile name]) body'.tokens
            (.closing name :: (rest.tokens ++ more)) →
          Passes fns answers inclusions (pre ++ [.opening .loopWhile name])
            body'.tokens body'.tokens
            (.closing name :: (rest.tokens ++ more)) f (m.at i :: loops) acc
            (m.at i :: loops) (acc ++ shown (m :: loops) (texts i)) := by
        intro i hi hin f acc hf
        rw [← shown_at m i]
        exact ihbs i hi hin (hm i) (List.cons_ne_nil _ _) hf
      let acc₀ := acc ++ shown (m :: loops) (texts 0)
      obtain ⟨f', hff', hf'f, hreach⟩ := @reaches_items _ fns answers
        inclusions _ _ f loops acc₀ m name get _ n texts
        (show rest.tokens ++ more ≠ [] by simp [hmore])
        rfl rfl rfl rfl hb.left_plain hget hf.le
        hf.head_lt hitems n (Nat.le_refl n)
      have hmax : max f' (pre ++ [Token.opening .loopWhile name] ++
          body'.tokens ++ [Token.closing name]).length =
          max f (pre ++ [Token.opening .loopWhile name] ++ body'.tokens ++
            [Token.closing name]).length := by
        omega
      have hlt : f' < (pre ++ [Token.opening .loopWhile name] ++
          body'.tokens ++ .closing name :: (rest.tokens ++ more)).length := by
        have hlt := hf.head_lt
        have hpos := List.length_pos_iff.mpr hmore
        simp only [List.length_append, List.length_cons,
          List.length_nil] at hlt hf'f ⊢
        omega
      have hnext : Returns (nextItem (some get) (m.at n).next.index
          (m.at n).type) false := returns_pure.mpr hlast
      have hclosed := @reaches_closed _ fns answers inclusions _ _ f' loops
        (acc₀ ++ shown (m :: loops)
          ((List.range n).flatMap fun j => texts (j + 1)))
        name (m.at n) _ hlt rfl rfl hnext
      rw [hmax] at hclosed
      exact hreach.trans hclosed
  | @found frames content content' rest rest' text out name hinclusion hc _
      ihc ihr =>
      intro pre more f loops acc hframes hmore hfits
      have hfirst : f = pre.length := by
        rcases hfits with hfirst | ⟨hplain, -⟩
        · exact hfirst
        · cases hplain _ List.mem_cons_self
      rw [hfirst, shown_append, ← List.append_assoc, Template.tokens_append]
      have hne : rest.tokens ++ more ≠ [] := by simp [hmore]
      have hcontent := @ihc pre (rest.tokens ++ more) pre.length loops acc
        hframes hne (Or.inl rfl)
      have hmax := Nat.max_eq_right
        (show pre.length ≤ (pre ++ content'.tokens).length by simp)
      have hrest := @ihr (pre ++ content'.tokens) more _ loops
        (acc ++ shown loops text) hframes hmore (Or.inl rfl)
      rw [← hmax] at hrest
      have hall := Passes.append hcontent hrest
      rw [Passes, List.append_assoc] at hall
      exact (reaches_found hne hinclusion).trans hall
  | @missing frames rest rest' out name c hinclusion _ ih =>
      intro pre more f loops acc hframes hmore hfits
      have hfirst : f = pre.length := by
        rcases hfits with hfirst | ⟨hplain, -⟩
        · exact hfirst
        · cases hplain _ List.mem_cons_self
      rw [hfirst]
      exact (reaches_missing hinclusion).trans
        (ih hframes hmore (Or.inl rfl))

/-- A template before a last text byte is rendered to its end. -/
theorem Runs.rendered
    (h : Runs fns answers inclusions [] template left out) (c : UInt8) :
    Returns (TokenState.rendered fns answers inclusions
      (template.tokens ++ [.text c])) ⟨0, out ++ [c]⟩ := by
  have hpass := @Runs.passes _ fns answers inclusions [] template left out h []
    [.text c] 0 [] [] rfl (List.cons_ne_nil _ _) (Or.inl rfl)
  have hmax := Nat.max_eq_right (Nat.zero_le ([] ++ left.tokens).length)
  rw [Passes, hmax, List.nil_append, List.nil_append] at hpass
  have htext : Reaches (step fns answers inclusions)
      (between left.tokens [.text c] left.tokens.length [] out)
      (between (left.tokens ++ [.text c]) []
        (max left.tokens.length (left.tokens ++ [Token.text c]).length) []
        (out ++ [c])) := reaches_text (by simp)
  have hend : ∀ f, Returns (step fns answers inclusions
      (between (left.tokens ++ [.text c]) [] f [] (out ++ [c])))
      (.inr ⟨0, out ++ [c]⟩) := by
    intro f
    have hget : (left.tokens ++ [Token.text c] ++ [])[
        (left.tokens ++ [Token.text c]).length]? = none := by
      rw [List.append_nil, List.getElem?_eq_none_iff]
    simp only [step, between, hget]
    exact returns_pure_self _
  rw [TokenState.rendered]
  apply (Reaches.returns_iff (hpass.trans htext)).mpr
  exact (hend _).loop_exit

end

end Libcad
