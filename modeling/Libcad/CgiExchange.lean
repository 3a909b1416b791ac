/-
What the calls of a handler say, and what a reader of the flushed text learns:
of each field what was said last, of a redirection what was said before the
body was begun, and all of the body.
-/
import Libcad.CgiSession

namespace Libcad

open Proc

namespace ResponseCall

def status : ResponseCall → Option Int
  | .setStatus status => some status
  | _ => none

def contentType : ResponseCall → Option Bytes
  | .setContentType _ contentType => contentType
  | _ => none

/-- The path and the fragment of a redirection. -/
def target : ResponseCall → Option (Bytes × Bytes)
  | .redirect _ _ (some path) (some fragment) => some (path, fragment)
  | _ => none

/-- The header that a call sets, if its field is not refused. -/
def header : ResponseCall → Option (Bytes × Bytes)
  | .setHeader _ (some field) (some value) =>
      if ∀ refused ∈ Response.refusedFields,
          strcasecmp (cString field) refused ≠ 0 then
        some (cString field, cString value)
      else none
  | _ => none

def part : ResponseCall → Option Bytes
  | .putBody text => some text
  | _ => none

/-- The redirections asked for before the body is begun. -/
def targets (calls : List ResponseCall) : List (Bytes × Bytes) :=
  (calls.takeWhile fun c => c.part.isNone).filterMap target

def Allocated : ResponseCall → Prop
  | .redirect path fragment _ _ => path = true ∧ fragment = true
  | .setContentType contentType _ => contentType = true
  | .setHeader header _ _ => header = true
  | _ => True

/-- The texts that a call gives to the header section. -/
def texts : ResponseCall → List Bytes
  | .redirect _ _ path fragment => path.toList ++ fragment.toList
  | .setContentType _ contentType => contentType.toList
  | .setHeader _ field value => field.toList ++ value.toList
  | _ => []

/-- No text holds a CR, and no field of a header a colon. -/
structure Tidy (c : ResponseCall) : Prop where
  texts : ∀ text ∈ c.texts, (13 : UInt8) ∉ text
  field : ∀ header ∈ c.header, ascii ':' ∉ header.1

end ResponseCall

/-- The response is what the calls said. -/
structure Response.Told (calls : List ResponseCall) (this : Response) :
    Prop where
  status : this.status = (calls.filterMap ResponseCall.status).getLast?.getD 0
  contentType : this.contentType =
    (calls.filterMap ResponseCall.contentType).getLast?
  path : this.redirectPath =
    (ResponseCall.targets calls).getLast?.map Prod.fst
  fragment : this.redirectFragment =
    (ResponseCall.targets calls).getLast?.map Prod.snd
  headers : this.headers = (Dict.setAll stringsEqual
    (calls.filterMap ResponseCall.header) []).map
      fun header => (header.1, some header.2)
  body : this.body = if calls.filterMap ResponseCall.part = [] then none
    else some (calls.filterMap ResponseCall.part).flatten

section

variable {calls : List ResponseCall} {c : ResponseCall} {this that : Response}

theorem ResponseCall.targets_concat :
    targets (calls ++ [c]) = if calls.filterMap part = [] then
        targets calls ++ c.target.toList
      else targets calls := by
  have hlast : ([c].takeWhile fun c => c.part.isNone).filterMap target =
      c.target.toList := by
    cases c with
    | redirect pathAllocated fragmentAllocated path fragment =>
        cases path <;> cases fragment <;> rfl
    | _ => rfl
  rw [targets, targets, List.takeWhile_append]
  by_cases hnone : calls.filterMap part = []
  · have hall : calls.takeWhile (fun c => c.part.isNone) = calls := by
      rw [List.takeWhile_eq_self_iff]
      intro c hc
      rw [List.filterMap_eq_nil_iff.mp hnone c hc]
      rfl
    rw [if_pos hnone, if_pos (congrArg List.length hall),
      List.filterMap_append, hlast, hall]
  · have hshort : (calls.takeWhile fun c => c.part.isNone).length ≠
        calls.length := by
      intro hlength
      have hall := (List.takeWhile_prefix _).eq_of_length hlength
      refine hnone (List.filterMap_eq_nil_iff.mpr fun c hc => ?_)
      exact Option.isNone_iff_eq_none.mp
        (List.takeWhile_eq_self_iff.mp hall c hc)
    rw [if_neg hnone, if_neg hshort]

theorem filterMap_concat {α β : Type} (f : α → Option β) (l : List α) (a : α) :
    (l ++ [a]).filterMap f = l.filterMap f ++ (f a).toList := by
  rw [List.filterMap_append]
  cases h : f a with
  | none => simp [h]
  | some b => simp [h]

theorem getLast?_append_toList {β : Type} (l : List β) (o : Option β) :
    (l ++ o.toList).getLast? = o.or l.getLast? := by
  cases o with
  | none => rw [Option.toList_none, List.append_nil, Option.none_or]
  | some b => rw [Option.toList_some, List.getLast?_concat, Option.some_or]

/-- What a call does to the response, besides its cookies. -/
def Response.hears (this : Response) (c : ResponseCall) : Response where
  cookies := this.cookies
  body := (c.part.map (this.body.getD [] ++ ·)).or this.body
  redirectPath := if this.body.isSome then this.redirectPath
    else (c.target.map Prod.fst).or this.redirectPath
  redirectFragment := if this.body.isSome then this.redirectFragment
    else (c.target.map Prod.snd).or this.redirectFragment
  status := c.status.getD this.status
  contentType := c.contentType.or this.contentType
  headers := c.header.elim this.headers fun header =>
    Dict.set stringsEqual header.1 header.1 (some header.2) this.headers

theorem Response.redirect_hears (this : Response)
    (path fragment : Option Bytes) :
    (this.redirect true true path fragment).2 =
      this.hears (.redirect true true path fragment) := by
  obtain ⟨cookies, body, redirectPath, redirectFragment, _, _, _⟩ := this
  cases body with
  | none => cases path <;> cases fragment <;> rfl
  | some body => rfl

theorem Response.setContentType_hears (this : Response)
    (contentType : Option Bytes) :
    (this.setContentType true contentType).2 =
      this.hears (.setContentType true contentType) := by
  obtain ⟨cookies, body, redirectPath, redirectFragment, _, _, _⟩ := this
  cases body <;> cases contentType <;> rfl

theorem Response.putBody_hears (this : Response) (text : Bytes) :
    this.putBody text = this.hears (.putBody text) := by
  obtain ⟨cookies, body, redirectPath, redirectFragment, _, _, _⟩ := this
  cases body <;> rfl

theorem Response.setStatus_hears (this : Response) (status : Int) :
    (this.setStatus status).2 = this.hears (.setStatus status) := by
  obtain ⟨cookies, body, redirectPath, redirectFragment, _, _, _⟩ := this
  cases body <;> rfl

theorem Response.setHeader_hears {field value : Option Bytes}
    {r : Int × Response} (h : Returns (this.setHeader true field value) r) :
    r.2 = this.hears (.setHeader true field value) := by
  have hquiet : (ResponseCall.setHeader true field value).header = none →
      this = this.hears (.setHeader true field value) := by
    intro hheader
    obtain ⟨cookies, body, redirectPath, redirectFragment, _, _, _⟩ := this
    rw [hears, hheader]
    cases body <;> rfl
  cases field with
  | none => exact returns_pure.mp h ▸ hquiet rfl
  | some field =>
      cases value with
      | none => exact returns_pure.mp h ▸ hquiet rfl
      | some value =>
          by_cases hpass : ∀ refused ∈ refusedFields,
              strcasecmp (cString field) refused ≠ 0
          · rw [setHeader, if_pos hpass, if_pos rfl] at h
            obtain ⟨headers, hset, h⟩ := returns_bind.mp h
            cases returns_pure.mp h
            cases returns_pure.mp hset
            rw [hears, ResponseCall.header, if_pos hpass]
            obtain ⟨cookies, body, redirectPath, redirectFragment, _, _, _⟩ :=
              this
            cases body <;> rfl
          · rw [setHeader, if_neg hpass] at h
            cases returns_pure.mp h
            exact hquiet (if_neg hpass)

/-- Only what is said changes the response, besides its cookies. -/
theorem Handling.call_hears {τ : Type} {arith : IntArith} {fns : StreamFns τ}
    {order : VisitOrder} {stale : Nat → Bool} {st next : Handling τ}
    {report : ResponseReport} (hc : c.Allocated)
    (h : Returns (st.call arith fns order stale c) (report, next)) :
    ∃ cookies, next.response =
      { st.response.hears c with cookies := cookies } := by
  have hquiet : ∀ {c : ResponseCall} {cookies : CookieJar}, c.part = none →
      c.target = none → c.status = none → c.contentType = none →
      c.header = none → ∃ cookies',
        { st.response with cookies := cookies } =
          { st.response.hears c with cookies := cookies' } := by
    intro c cookies hpart htarget hstatus htype hheader
    refine ⟨cookies, ?_⟩
    rw [Response.hears, hpart, htarget, hstatus, htype, hheader]
    simp
  cases c with
  | redirect pathAllocated fragmentAllocated path fragment =>
      obtain ⟨rfl, rfl⟩ := hc
      rw [← (Prod.mk.inj (returns_pure.mp h)).2]
      exact ⟨_, Response.redirect_hears _ _ _⟩
  | setStatus status =>
      cases returns_pure.mp h
      exact ⟨_, Response.setStatus_hears _ _⟩
  | setContentType allocated contentType =>
      cases (show allocated = true from hc)
      rw [← (Prod.mk.inj (returns_pure.mp h)).2]
      exact ⟨_, Response.setContentType_hears _ _⟩
  | setHeader allocated field value =>
      cases (show allocated = true from hc)
      obtain ⟨result, hset, h⟩ := returns_bind.mp h
      rw [← (Prod.mk.inj (returns_pure.mp h)).2]
      exact ⟨_, Response.setHeader_hears hset⟩
  | putBody text =>
      cases returns_pure.mp h
      exact ⟨_, Response.putBody_hears _ _⟩
  | flush =>
      obtain ⟨⟨text, response⟩, hflush, h⟩ := returns_bind.mp h
      cases returns_pure.mp h
      obtain ⟨location, -, hflush⟩ := returns_bind.mp hflush
      obtain ⟨⟨lines, cookies⟩, -, hflush⟩ := returns_bind.mp hflush
      obtain ⟨body, -, hflush⟩ := returns_bind.mp hflush
      cases returns_pure.mp hflush
      exact hquiet rfl rfl rfl rfl rfl
  | metaVariables call =>
      obtain ⟨⟨answer, metaState⟩, -, h⟩ := returns_bind.mp h
      cases returns_pure.mp h
      exact hquiet rfl rfl rfl rfl rfl
  | setCookie pointer =>
      obtain ⟨⟨result, cookies⟩, -, h⟩ := returns_bind.mp h
      cases returns_pure.mp h
      exact hquiet rfl rfl rfl rfl rfl
  | cookie pointer call =>
      obtain ⟨cookie, -, h⟩ := returns_bind.mp h
      obtain ⟨⟨answer, changed⟩, -, h⟩ := returns_bind.mp h
      cases returns_pure.mp h
      exact hquiet rfl rfl rfl rfl rfl
  | freeCookie pointer =>
      obtain ⟨⟨freed, cookies⟩, -, h⟩ := returns_bind.mp h
      cases returns_pure.mp h
      exact hquiet rfl rfl rfl rfl rfl
  | _ =>
      cases returns_pure.mp h
      exact hquiet rfl rfl rfl rfl rfl

theorem Response.Told.hears (h : this.Told calls) (cookies : CookieJar) :
    Response.Told (calls ++ [c]) { this.hears c with cookies := cookies } := by
  have hbody := h.body
  have hbegun : this.body.isSome = true ↔
      calls.filterMap ResponseCall.part ≠ [] := by
    rw [hbody]
    split
    next hnone => exact iff_of_false Bool.false_ne_true fun hne => hne hnone
    next hne => exact iff_of_true rfl hne
  constructor
  · rw [filterMap_concat, getLast?_append_toList, Option.getD_or, ← h.status]
    rfl
  · rw [filterMap_concat, getLast?_append_toList, ← h.contentType]
    rfl
  · rw [ResponseCall.targets_concat]
    show (if this.body.isSome then _ else _) = _
    by_cases hnone : calls.filterMap ResponseCall.part = []
    · rw [if_neg (fun hsome => hbegun.mp hsome hnone), if_pos hnone,
        getLast?_append_toList, h.path]
      cases c.target <;> rfl
    · rw [if_pos (hbegun.mpr hnone), if_neg hnone, h.path]
  · rw [ResponseCall.targets_concat]
    show (if this.body.isSome then _ else _) = _
    by_cases hnone : calls.filterMap ResponseCall.part = []
    · rw [if_neg (fun hsome => hbegun.mp hsome hnone), if_pos hnone,
        getLast?_append_toList, h.fragment]
      cases c.target <;> rfl
    · rw [if_pos (hbegun.mpr hnone), if_neg hnone, h.fragment]
  · rw [filterMap_concat, Dict.setAll_append]
    show c.header.elim this.headers _ = _
    rw [h.headers]
    cases c.header with
    | none => rfl
    | some header => exact (Dict.set_map some header.1 header.1 header.2 _).symm
  · rw [filterMap_concat]
    show (c.part.map _).or this.body = _
    rw [hbody]
    cases c.part with
    | none => simp
    | some text =>
        by_cases hnone : calls.filterMap ResponseCall.part = []
        · simp [hnone]
        · simp [hnone]

theorem newHandling_told {τ : Type} {heap : HeapContents τ} {env : Env}
    {input : Option (InputStream τ)} {fd : Int} {first : Handling τ}
    (h : Returns (newHandling heap env input fd) first) :
    first.response.Told [] := by
  obtain ⟨response, hresponse, h⟩ := returns_bind.mp h
  cases returns_pure.mp h
  obtain ⟨cookies, -, hresponse⟩ := returns_bind.mp hresponse
  cases returns_pure.mp hresponse
  exact ⟨rfl, rfl, rfl, rfl, rfl, rfl⟩

/-- After a course of calls the response is what they said. -/
theorem Response.Told.leadsTo {τ : Type} {arith : IntArith} {fns : StreamFns τ}
    {order : VisitOrder} {stale : Nat → Bool} {first st : Handling τ}
    {calls rest : List ResponseCall}
    (h : LeadsTo (Handling.call arith fns order stale) calls first rest st)
    (hcalls : ∀ c ∈ calls, c.Allocated) {before : List ResponseCall}
    (hfirst : first.response.Told before) :
    ∃ said, calls = said ++ rest ∧ st.response.Told (before ++ said) := by
  induction h generalizing before with
  | here rest st => exact ⟨[], rfl, (List.append_nil before).symm ▸ hfirst⟩
  | @call c calls rest first next st report hcall _ ih =>
      obtain ⟨hc, hcalls⟩ := List.forall_mem_cons.mp hcalls
      obtain ⟨cookies, hnext⟩ := Handling.call_hears hc hcall
      obtain ⟨said, rfl, htold⟩ := ih hcalls (hnext ▸ hfirst.hears cookies)
      refine ⟨c :: said, rfl, ?_⟩
      rwa [List.append_assoc, List.singleton_append] at htold

theorem ResponseCall.header_texts {pair : Bytes × Bytes}
    (h : c.header = some pair) :
    ∀ text ∈ Response.headerTexts (pair.1, some pair.2),
      ∃ whole ∈ c.texts, text = cString whole := by
  cases c with
  | setHeader allocated field value =>
      cases field with
      | none => cases h
      | some field =>
          cases value with
          | none => cases h
          | some value =>
              rw [header] at h
              split at h
              next =>
                cases h
                simp [Response.headerTexts, texts]
              next => cases h
  | _ => cases h

theorem Response.Told.not_broken (h : this.Told calls)
    (htidy : ∀ c ∈ calls, c.Tidy)
    (hcookies : ¬ Broken (this.cookieTexts this.cookies.jar)) :
    ¬ Broken this.texts := by
  have hquiet : ∀ c ∈ calls, ∀ text ∈ c.texts, ¬ HasCrlf text :=
    fun c hc text htext =>
      not_hasCrlf_of_not_mem ((htidy c hc).texts text htext)
  rw [texts]
  simp only [broken_append, not_or]
  refine ⟨⟨⟨?_, ?_⟩, ?_⟩, hcookies⟩
  · rintro ⟨text, htext, hcrlf⟩
    rw [h.contentType, Option.mem_toList] at htext
    obtain ⟨c, hc, hsaid⟩ :=
      List.mem_filterMap.mp (List.mem_of_getLast? htext)
    refine hquiet c hc text ?_ hcrlf
    cases c with
    | setContentType allocated contentType =>
        exact Option.mem_toList.mpr hsaid
    | _ => cases hsaid
  · rintro ⟨text, htext, hcrlf⟩
    rw [redirectTexts, h.path, h.fragment] at htext
    cases htarget : (ResponseCall.targets calls).getLast? with
    | none =>
        rw [htarget] at htext
        cases htext
    | some target =>
        rw [htarget] at htext
        obtain ⟨c, hc, hsaid⟩ :=
          List.mem_filterMap.mp (List.mem_of_getLast? htarget)
        refine hquiet c (List.takeWhile_subset _ hc) text ?_ hcrlf
        cases c with
        | redirect pathAllocated fragmentAllocated path fragment =>
            cases path with
            | none => cases hsaid
            | some path =>
                cases fragment with
                | none => cases hsaid
                | some fragment =>
                    cases hsaid
                    exact htext
        | _ => cases hsaid
  · rw [broken_flatMap, h.headers]
    rintro ⟨header, hheader, text, htext, hcrlf⟩
    obtain ⟨pair, hpair, rfl⟩ := List.mem_map.mp hheader
    obtain ⟨c, hc, hsaid⟩ := List.mem_filterMap.mp (mem_of_mem_setAll hpair)
    obtain ⟨whole, hwhole, rfl⟩ := ResponseCall.header_texts hsaid text htext
    refine not_hasCrlf_of_not_mem (fun hcr => ?_) hcrlf
    exact (htidy c hc).texts whole hwhole (cString_subset whole hcr)

end

def fieldOf (line : Bytes) : Bytes × Bytes :=
  (line.takeWhile (· ≠ ascii ':'), (line.dropWhile (· ≠ ascii ':')).drop 2)

/-- A message as a reader has it: the fields in their order, and the body. -/
def readMessage (text : Bytes) : List (Bytes × Bytes) × Bytes :=
  ((readHead [] text).1.map fieldOf, (readHead [] text).2)

def locationField (target : Bytes × Bytes) : Bytes × Bytes :=
  (chars "Location",
    target.1 ++ if target.2 = [] then [] else chars "#" ++ target.2)

/-- A message says what the calls said last; its body is what they wrote, with
CR LF line ends but for an LF after a last CR. -/
structure Conveys (calls : List ResponseCall)
    (message : List (Bytes × Bytes) × Bytes) : Prop where
  fields : ∃ headers cookies : List (Bytes × Bytes), message.1 =
      [(chars "Content-Type", (calls.filterMap
          ResponseCall.contentType).getLast?.getD (chars "text/plain")),
        (chars "Status", decimal (
          if (calls.filterMap ResponseCall.status).getLast?.getD 0 = 0 then 200
          else (calls.filterMap ResponseCall.status).getLast?.getD 0))] ++
      ((ResponseCall.targets calls).getLast?.map locationField).toList ++
      headers ++ cookies ∧
    headers.Perm (Dict.setAll stringsEqual
      (calls.filterMap ResponseCall.header) []) ∧
    ∀ field ∈ cookies, field.1 = chars "Set-Cookie"
  body : ∃ ending, message.2 ++ ending =
      normalise (cString (calls.filterMap ResponseCall.part).flatten) ∧
    ((cString (calls.filterMap ResponseCall.part).flatten).getLast? ≠
      some 13 → ending = [])

theorem fieldOf_append {name : Bytes} (h : ascii ':' ∉ name) (value : Bytes) :
    fieldOf (name ++ chars ": " ++ value) = (name, value) := by
  obtain ⟨hbefore, hafter⟩ := takeWhile_append_cons
    (p := (· ≠ ascii ':')) (a := name) (b := chars ": " ++ value)
    (fun c hc => decide_eq_true fun heq => h (heq ▸ hc))
    (fun c hc => by
      cases hc
      rfl)
  rw [fieldOf, List.append_assoc, hbefore, hafter]
  rfl

theorem fieldOf_label {label name : Bytes} (hlabel : label = name ++ chars ": ")
    (h : ascii ':' ∉ name) (value : Bytes) :
    fieldOf (label ++ value) = (name, value) := by
  rw [hlabel, fieldOf_append h]

theorem Cookie.fieldOf_line (this : Cookie) :
    (fieldOf this.line).1 = chars "Set-Cookie" := by
  rw [line, List.append_assoc, List.append_assoc, List.append_assoc,
    List.append_assoc, fieldOf_label (show chars "Set-Cookie: " =
      chars "Set-Cookie" ++ chars ": " by decide) (by decide)]

section

variable {calls : List ResponseCall} {this : Response}

theorem Response.Told.locationLines (h : this.Told calls) :
    this.locationLines.map fieldOf =
      ((ResponseCall.targets calls).getLast?.map locationField).toList := by
  rw [Response.locationLines, h.path, h.fragment]
  cases (ResponseCall.targets calls).getLast? with
  | none => rfl
  | some target =>
      show [fieldOf (_ ++ _ ++ _)] = [_]
      rw [List.append_assoc, fieldOf_label (show chars "Location: " =
        chars "Location" ++ chars ": " by decide) (by decide)]
      rfl

theorem Response.Told.headerLines (h : this.Told calls)
    (htidy : ∀ c ∈ calls, c.Tidy) (order : VisitOrder) :
    (((order.visits this.headers).map headerLine).map fieldOf).Perm
      (Dict.setAll stringsEqual (calls.filterMap ResponseCall.header) []) := by
  have hread : ∀ header ∈ this.headers,
      fieldOf (headerLine header) = (header.1, header.2.getD []) := by
    intro header hheader
    rw [h.headers] at hheader
    obtain ⟨pair, hpair, rfl⟩ := List.mem_map.mp hheader
    obtain ⟨c, hc, hsaid⟩ := List.mem_filterMap.mp (mem_of_mem_setAll hpair)
    exact fieldOf_append ((htidy c hc).field pair hsaid) _
  rw [List.map_map]
  refine ((order.perm this.headers).map _).trans (.of_eq ?_)
  refine (List.map_congr_left hread).trans ?_
  rw [h.headers, List.map_map]
  exact List.map_id _

theorem Response.Told.headLines (h : this.Told calls) (order : VisitOrder) :
    (this.headLines order).map fieldOf =
      [(chars "Content-Type", (calls.filterMap
          ResponseCall.contentType).getLast?.getD (chars "text/plain")),
        (chars "Status", decimal (
          if (calls.filterMap ResponseCall.status).getLast?.getD 0 = 0 then 200
          else (calls.filterMap ResponseCall.status).getLast?.getD 0))] ++
      ((ResponseCall.targets calls).getLast?.map locationField).toList ++
      ((order.visits this.headers).map headerLine).map fieldOf ++
      (this.cookies.lines (order.visits this.cookies.jar)).map fieldOf := by
  rw [Response.headLines, h.contentType, h.status, List.map_append,
    List.map_append, List.map_append, h.locationLines, List.map_cons,
    List.map_cons, List.map_nil,
    fieldOf_label (show chars "Content-Type: " =
      chars "Content-Type" ++ chars ": " by decide) (by decide),
    fieldOf_label (show chars "Status: " =
      chars "Status" ++ chars ": " by decide) (by decide)]

end

open Handling in
/-- A reader of what is flushed after any course of calls learns what the calls
said. -/
theorem flush_conveys {τ : Type} {arith : IntArith} {fns : StreamFns τ}
    {order : VisitOrder} {heap : HeapContents τ} {env : Env}
    {input : Option (InputStream τ)} {fd : Int} {first st : Handling τ}
    (hnew : Returns (newHandling heap env input fd) first)
    {calls : List ResponseCall}
    (hcalls : LeadsTo (call arith fns order heap.cookies) calls first [] st)
    (hallocated : ∀ c ∈ calls, c.Allocated) (htidy : ∀ c ∈ calls, c.Tidy)
    (hcookies : ¬ Broken (st.response.cookieTexts st.jar.jar)) {text : Bytes}
    {after : Response}
    (hflush : Returns (st.response.flush order) (text, after)) :
    Conveys calls (readMessage text) := by
  obtain ⟨said, hsaid, htold⟩ :=
    Response.Told.leadsTo hcalls hallocated (newHandling_told hnew)
  rw [List.append_nil] at hsaid
  subst hsaid
  rw [List.nil_append] at htold
  have hv := leadsTo_valid hcalls (newHandling_live hnew).1
  obtain ⟨body, hbody, -, rfl⟩ :=
    (hv.flush_returns_iff order).mp ⟨after, hflush⟩
  have hbroken : ∀ line ∈ st.response.headLines order, ¬ HasCrlf line :=
    fun line hline hcrlf => htold.not_broken htidy hcookies
      ((st.response.broken_headLines order).mp ⟨line, hline, hcrlf⟩)
  have hread := (@readHead_unlines_iff _ (Response.bodyChars 0 (cString body))
    (st.response.headLines_ne_nil order)).mpr hbroken
  have hparts : body = (calls.filterMap ResponseCall.part).flatten := by
    have htext := htold.body
    rw [hbody] at htext
    split at htext
    next => cases htext
    next => exact Option.some.inj htext
  subst hparts
  constructor
  · rw [readMessage, hread]
    refine ⟨_, _, htold.headLines order, htold.headerLines htidy order, ?_⟩
    intro field hfield
    obtain ⟨line, hline, rfl⟩ := List.mem_map.mp hfield
    obtain ⟨visit, -, hline⟩ := List.mem_flatMap.mp hline
    split at hline
    next cookie _ =>
      rw [Cookie.lines] at hline
      split at hline
      next =>
        rw [List.mem_singleton.mp hline]
        exact cookie.fieldOf_line
      next => cases hline
    next => cases hline
  · rw [readMessage, hread]
    exact ⟨_, (Response.bodyChars_missing _).1,
      (Response.missing_eq_nil_iff _).1.mpr⟩

/-- The calls of a handler that says some things twice. -/
def twiceSaid : List ResponseCall :=
  [.setStatus 404, .redirect true true (some (chars "/a")) (some (chars "b")),
    .setHeader true (some (chars "X")) (some (chars "1")),
    .putBody (chars "h"), .setHeader true (some (chars "X")) (some (chars "2")),
    .redirect true true (some (chars "/c")) (some []), .setStatus 303,
    .putBody (chars "i")]

theorem flush_conveys_last :
    ∃ first st text after, Returns (newHandling
        (HeapContents.zero StringStream) (fun _ => none) none 1) first ∧
      LeadsTo (Handling.call intChecked stringFns .entries fun _ => false)
        twiceSaid first [] st ∧
      Returns (st.response.flush .entries) (text, after) ∧
      readMessage text = ([(chars "Content-Type", chars "text/plain"),
        (chars "Status", chars "303"), (chars "Location", chars "/a#b"),
        (chars "X", chars "2")], chars "hi") ∧
      Conveys twiceSaid (readMessage text) := by
  have hcalls : ∃ first st, Returns (newHandling
        (HeapContents.zero StringStream) (fun _ => none) none 1) first ∧
      LeadsTo (Handling.call intChecked stringFns .entries fun _ => false)
        twiceSaid first [] st ∧
      st.response = ⟨⟨[], []⟩, some (chars "hi"), some (chars "/a"),
        some (chars "b"), 303, none, [(chars "X", some (chars "2"))]⟩ :=
    ⟨_, _, ⟨0, rfl⟩, .call ⟨0, rfl⟩ (.call ⟨0, rfl⟩ (.call ⟨0, rfl⟩
      (.call ⟨0, rfl⟩ (.call ⟨0, rfl⟩ (.call ⟨0, rfl⟩ (.call ⟨0, rfl⟩
        (.call ⟨0, rfl⟩ (.here _ _)))))))), rfl⟩
  obtain ⟨first, st, hnew, hleads, hresponse⟩ := hcalls
  have hflush : ∃ text after, Returns (st.response.flush .entries)
        (text, after) ∧
      readMessage text = ([(chars "Content-Type", chars "text/plain"),
        (chars "Status", chars "303"), (chars "Location", chars "/a#b"),
        (chars "X", chars "2")], chars "hi") := by
    rw [hresponse]
    exact ⟨_, _, ⟨0, rfl⟩, by decide⟩
  obtain ⟨text, after, hflush, hread⟩ := hflush
  refine ⟨first, st, text, after, hnew, hleads, hflush, hread,
    flush_conveys hnew hleads ?_ ?_ ?_ hflush⟩
  · simp [twiceSaid, ResponseCall.Allocated]
  · rw [twiceSaid]
    simp only [List.forall_mem_cons]
    exact ⟨⟨by decide, by decide⟩, ⟨by decide, by decide⟩,
      ⟨by decide, by decide⟩, ⟨by decide, by decide⟩, ⟨by decide, by decide⟩,
      ⟨by decide, by decide⟩, ⟨by decide, by decide⟩, ⟨by decide, by decide⟩,
      List.forall_mem_nil _⟩
  · rw [Handling.jar, hresponse]
    decide

end Libcad
