import ProxyCache.App.Rules
import ProxyCache.Lib.History
import ProxyCache.Theorems.Traffic

/-!
# Where a page comes from

`X-Cache` says where a page comes from, and what it says is what happened. The calls that a request
has made in a run are its evidence:

* `HIT` — the body was read under a key of its format, and the upstream was not asked;
* `HIT-synthesized` — it was converted from the other format, which was still stored unchanged when
  the conversion was stored, and the upstream was not asked;
* `REVALIDATED` — the upstream was asked once and answered 304, and the body is that of a stale
  copy;
* `MISS` — the last answer of the upstream was a 200 and the body was made from it; an earlier one
  can only have been a 304, after which the request was repeated without validators.

A 404 was read from the cache, or was the last answer of the upstream.
-/

namespace ProxyCache.Theorems.ReplySources

open ProxyCache.Lib ProxyCache.Python ProxyCache.App
open ProxyCache.Theorems.Traffic

variable {s : Site} {r : ProjectRequest}

/-! ## Evidence -/

/-- What a request saw. -/
inductive Sight where
  | read (key : Str) (value : Option Str)
  | exchanged (request : UpstreamRequest) (response : Option UpstreamResponse)
  | committed (expected : List (Str × Option Str)) (values : List Write)

def sight : (o : Op) → Ret o → List Sight
  | .getMany keys, values => (keys.zip values).map fun (key, value) => .read key value
  | .httpGet request, response => [.exchanged request response]
  | .setexManyIfUnchanged expected values, committed =>
    if committed = true then [.committed expected values] else []
  | _, _ => []

/-- The GETs of a request with their answers. -/
def exchanges (log : List Sight) : List (UpstreamRequest × Option UpstreamResponse) :=
  log.filterMap fun
    | .exchanged request response => some (request, response)
    | _ => none

/-- A value was read under a key. -/
def Found (log : List Sight) (key value : Str) : Prop := Sight.read key (some value) ∈ log

/-- The GET is one for the project, with validators that were read. -/
def Asks (s : Site) (r : ProjectRequest) (log : List Sight) (request : UpstreamRequest) : Prop :=
  ∃ etag lastMod, request = upstreamRequest s r etag lastMod ∧
    (∀ value, etag = some value → Found log r.etagKey value) ∧
    ∀ value, lastMod = some value → Found log r.lastmodKey value

/-- The format is the wanted one, or HTML where JSON is wanted and HTML is accepted as well. -/
def Suits (r : ProjectRequest) (isJson : Bool) : Prop :=
  isJson = r.wantsJson ∨ (isJson = false ∧ (r.wantsJson && r.allowHtmlPassthrough) = true)

/-- The body is that of a stale copy, or the wanted format of the other one. -/
def Survives (s : Site) (r : ProjectRequest) (log : List Sight) (isJson : Bool) (body : Str) :
    Prop :=
  Found log (projectKey r.canonical (.stale isJson)) body ∨
    (isJson = r.wantsJson ∧ ∃ other, Found log r.otherStaleKey other ∧
      convertBody s r.canonical r.wantsJson other = .ok body)

/-- The body was made from a 200. -/
inductive MadeFrom (s : Site) (r : ProjectRequest) (response : UpstreamResponse) : Reply → Prop
  | passthrough {reply : Reply} :
      rewriteSimpleBody s.U s.D s.settings response.text (isUpstreamJson response) =
        .ok reply.body →
      reply.mediaType = mediaTypeOf (isUpstreamJson response) → MadeFrom s r response reply
  | synthesis {reply : Reply} {jsonBody htmlBody : Str} :
      synthesizeBodies s r.canonical (isUpstreamJson response) response.content response.text =
        .ok (jsonBody, htmlBody) →
      reply.body = (if isUpstreamJson response then htmlBody else jsonBody) →
      reply.mediaType = mediaTypeOf (!isUpstreamJson response) → MadeFrom s r response reply

/-- The answers before the last one: none, or a 304 that could not be used. -/
def Retries (s : Site) (r : ProjectRequest)
    (given : List (UpstreamRequest × Option UpstreamResponse)) (request : UpstreamRequest) : Prop :=
  given = [] ∨ ∃ first response, given = [(first, some response)] ∧ response.status = 304 ∧
    request = upstreamRequest s r none none

/-- What the evidence has to be for each value of `X-Cache`. -/
inductive Provenance (s : Site) (r : ProjectRequest) (log : List Sight) (reply : Reply) :
    Str → Prop
  | hit {isJson : Bool} : exchanges log = [] → Suits r isJson →
      Found log (projectKey r.canonical (.body isJson)) reply.body →
      reply.mediaType = mediaTypeOf isJson → Provenance s r log reply ("HIT" : Str)
  | synthesized {other : Str} {values : List Write} : exchanges log = [] →
      Found log r.otherKey other → convertBody s r.canonical r.wantsJson other = .ok reply.body →
      Sight.committed [(r.otherKey, some other)] values ∈ log →
      reply.mediaType = mediaTypeOf r.wantsJson →
      Provenance s r log reply ("HIT-synthesized" : Str)
  | revalidated {isJson : Bool} {request : UpstreamRequest} {response : UpstreamResponse} :
      exchanges log = [(request, some response)] → response.status = 304 → Suits r isJson →
      Survives s r log isJson reply.body → reply.mediaType = mediaTypeOf isJson →
      Provenance s r log reply ("REVALIDATED" : Str)
  | filled {given : List (UpstreamRequest × Option UpstreamResponse)} {request : UpstreamRequest}
      {response : UpstreamResponse} : exchanges log = given ++ [(request, some response)] →
      Retries s r given request → response.status = 200 → MadeFrom s r response reply →
      Provenance s r log reply ("MISS" : Str)

/-- **Truthful**: what a request ends with is what its evidence says. -/
structure Truthful (s : Site) (r : ProjectRequest) (log : List Sight) (outcome : Outcome) :
    Prop where
  asked : ∀ x ∈ exchanges log, Asks s r log x.1
  reply : ∀ reply, outcome = .ok reply → ∃ value,
    dictGet reply.headers ("X-Cache" : Str) = some value ∧ Provenance s r log reply value
  absent : ∀ detail headers, outcome = .error (.http 404 detail headers) →
    (dictGet headers ("X-Cache" : Str) = some ("HIT" : Str) ∧ exchanges log = [] ∧
      ∃ value, Found log r.notFoundKey value) ∨
    (dictGet headers ("X-Cache" : Str) = some ("MISS" : Str) ∧ ∃ given request response,
      exchanges log = given ++ [(request, some response)] ∧ response.status = 404)

/-! ## Evidence accumulates -/

section Logs

variable {log log' before : List Sight} {key value : Str} {reply : Reply} {outcome : Outcome}

@[simp] theorem exchanges_append : exchanges (log ++ log') = exchanges log ++ exchanges log' :=
  List.filterMap_append

theorem Found.prepend (h : Found log key value) : Found (before ++ log) key value :=
  List.mem_append_right _ h

theorem Found.append (h : Found log key value) : Found (log ++ log') key value :=
  List.mem_append_left _ h

theorem Asks.prepend {request : UpstreamRequest} (h : Asks s r log request) :
    Asks s r (before ++ log) request := by
  obtain ⟨etag, lastMod, hrequest, hetag, hlastMod⟩ := h
  exact ⟨etag, lastMod, hrequest, fun v hv => (hetag v hv).prepend,
    fun v hv => (hlastMod v hv).prepend⟩

theorem Asks.append {request : UpstreamRequest} (h : Asks s r log request) :
    Asks s r (log ++ log') request := by
  obtain ⟨etag, lastMod, hrequest, hetag, hlastMod⟩ := h
  exact ⟨etag, lastMod, hrequest, fun v hv => (hetag v hv).append,
    fun v hv => (hlastMod v hv).append⟩

/-- What was seen before does not change where a reply comes from, unless the upstream was asked. -/
theorem Provenance.prepend (hbefore : exchanges before = [])
    (h : Provenance s r log reply value) : Provenance s r (before ++ log) reply value := by
  have hsame : exchanges (before ++ log) = exchanges log := by
    rw [exchanges_append, hbefore, List.nil_append]
  cases h with
  | hit hnone hsuits hfound hmedia => exact .hit (hsame.trans hnone) hsuits hfound.prepend hmedia
  | synthesized hnone hfound hconvert hcommitted hmedia =>
    exact .synthesized (hsame.trans hnone) hfound.prepend hconvert
      (List.mem_append_right _ hcommitted) hmedia
  | revalidated hone hstatus hsuits hsurvives hmedia =>
    refine .revalidated (hsame.trans hone) hstatus hsuits ?_ hmedia
    rcases hsurvives with hfound | ⟨hjson, other, hfound, hconvert⟩
    · exact .inl hfound.prepend
    · exact .inr ⟨hjson, other, hfound.prepend, hconvert⟩
  | filled hlast hretries hstatus hmade =>
    exact .filled (hsame.trans hlast) hretries hstatus hmade

theorem Truthful.prepend (hbefore : exchanges before = []) (h : Truthful s r log outcome) :
    Truthful s r (before ++ log) outcome := by
  have hsame : exchanges (before ++ log) = exchanges log := by
    rw [exchanges_append, hbefore, List.nil_append]
  refine ⟨?_, ?_, ?_⟩
  · intro x hx
    rw [hsame] at hx
    exact (h.asked x hx).prepend
  · intro reply hreply
    obtain ⟨value, hvalue, hprovenance⟩ := h.reply reply hreply
    exact ⟨value, hvalue, hprovenance.prepend hbefore⟩
  · intro detail headers hoc
    rcases h.absent detail headers hoc with ⟨hhit, hnone, marker, hmarker⟩ | ⟨hmiss, rest⟩
    · exact .inl ⟨hhit, hsame.trans hnone, marker, hmarker.prepend⟩
    · exact .inr ⟨hmiss, by rw [hsame]; exact rest⟩

/-- A reply, and its provenance. -/
theorem truthful_ok (hasked : ∀ x ∈ exchanges log, Asks s r log x.1)
    (hvalue : dictGet reply.headers ("X-Cache" : Str) = some value)
    (h : Provenance s r log reply value) : Truthful s r log (.ok reply) := by
  refine ⟨hasked, ?_, nofun⟩
  intro reply' hreply'
  obtain rfl := Except.ok.inj hreply'
  exact ⟨value, hvalue, h⟩

/-- A failure that is not a 404 says nothing about the project. -/
theorem truthful_error {failure : Failure} (hasked : ∀ x ∈ exchanges log, Asks s r log x.1)
    (h : ∀ detail headers, failure ≠ .http 404 detail headers) :
    Truthful s r log (.error failure) :=
  ⟨hasked, nofun, fun detail headers hoc => absurd (Except.error.inj hoc) (h detail headers)⟩

end Logs

/-! ## Calls that do not ask -/

section Inward

variable {α β : Type} {p : Program α}

theorem exchanges_sight {o : Op} (ho : Inward o) (a : Ret o) : exchanges (sight o a) = [] := by
  cases o with
  | getMany keys =>
    show exchanges ((keys.zip a).map _) = []
    unfold exchanges
    rw [List.filterMap_map, List.filterMap_eq_nil_iff]
    exact fun _ _ => rfl
  | setexManyIfUnchanged expected values =>
    cases a with
    | false => rfl
    | true => rfl
  | httpGet request => cases ho
  | _ => rfl

/-- A part that stays inside. -/
theorem emits_inward {P : α → Prop} (hp : p.Calls Inward) (hreturns : p.Returns P) :
    p.Emits sight fun ms a => exchanges ms = [] ∧ P a := by
  induction p with
  | ret a => exact ⟨rfl, hreturns⟩
  | call o k ih =>
    intro answer
    refine (ih answer (hp.2 answer) (hreturns answer)).mono fun ms a h => ⟨?_, h.2⟩
    rw [exchanges_append, exchanges_sight hp.1, h.1]
    rfl

theorem emits_inward_bind {Q : List Sight → β → Prop} {P : α → Prop} {f : α → Program β}
    (hp : p.Calls Inward) (hreturns : p.Returns P)
    (hf : ∀ ms a, exchanges ms = [] → P a → (f a).Emits sight fun ms' b => Q (ms ++ ms') b) :
    (p >>= f).Emits sight Q :=
  (emits_inward hp hreturns).bind fun ms a h => hf ms a h.1 h.2

/-- Reading one key. -/
theorem emits_cacheGet {Q : List Sight → β → Prop} {key : Str} {f : Option Str → Program β}
    (hf : ∀ ms value, exchanges ms = [] → (∀ v, value = some v → Found ms key v) →
      (f value).Emits sight fun ms' b => Q (ms ++ ms') b) :
    (cacheGet key >>= f).Emits sight Q := by
  refine Prog.Emits.bind (P := fun ms value => exchanges ms = [] ∧
    ∀ v, value = some v → Found ms key v) ?_ fun ms value h => hf ms value h.1 h.2
  unfold cacheGet
  intro values
  have hquiet := exchanges_sight (o := .getMany [key]) rfl values
  refine ⟨by rw [List.append_nil, hquiet], fun v hv => ?_⟩
  match values, hv with
  | some _ :: _, rfl => exact List.mem_append_left _ List.mem_cons_self

/-- Reading two keys. -/
theorem emits_cacheGetTwo {Q : List Sight → β → Prop} {key key' : Str}
    {f : Option Str × Option Str → Program β}
    (hf : ∀ ms value value', exchanges ms = [] → (∀ v, value = some v → Found ms key v) →
      (∀ v, value' = some v → Found ms key' v) →
      (f (value, value')).Emits sight fun ms' b => Q (ms ++ ms') b) :
    (cacheGetTwo key key' >>= f).Emits sight Q := by
  refine Prog.Emits.bind (P := fun ms (values : Option Str × Option Str) => exchanges ms = [] ∧
    (∀ v, values.1 = some v → Found ms key v) ∧ ∀ v, values.2 = some v → Found ms key' v) ?_
    fun ms values h => hf ms values.1 values.2 h.1 h.2.1 h.2.2
  unfold cacheGetTwo
  intro values
  have hquiet := exchanges_sight (o := .getMany [key, key']) rfl values
  refine ⟨by rw [List.append_nil, hquiet], fun v hv => ?_, fun v hv => ?_⟩
  · match values, hv with
    | some _ :: _, rfl => exact List.mem_append_left _ List.mem_cons_self
  · match values, hv with
    | _ :: some _ :: _, rfl =>
      exact List.mem_append_left _ (List.mem_cons_of_mem _ List.mem_cons_self)

end Inward

/-! ## From the cache -/

theorem asked_of_nil {log : List Sight} (h : exchanges log = []) :
    ∀ x ∈ exchanges log, Asks s r log x.1 := by
  intro x hx
  rw [h] at hx
  cases hx

/-- A cached response has the format that it is asked for, and is a hit. -/
theorem cachedResponse_replies (canonical body : Str) (isJson : Bool) :
    (cachedResponse s canonical body isJson).Returns fun reply => reply.body = body ∧
      reply.mediaType = mediaTypeOf isJson ∧
      dictGet reply.headers ("X-Cache" : Str) = some ("HIT" : Str) := by
  unfold cachedResponse
  split
  · refine Prog.Returns.bind_of_forall _ fun ttl => ?_
    cases ttl with
    | none => exact Prog.Returns.bind_of_forall _ fun _ => ⟨rfl, rfl, rfl⟩
    | some ttl => exact ⟨rfl, rfl, rfl⟩
  · exact ⟨rfl, rfl, rfl⟩

/-- What trying the cache has shown. -/
def Tried (s : Site) (r : ProjectRequest) (log : List Sight)
    (result : Except Failure (Option Reply)) : Prop :=
  exchanges log = [] ∧ ∀ outcome : Outcome, result = outcome.map some → Truthful s r log outcome

theorem tried_none {log : List Sight} (h : exchanges log = []) : Tried s r log (.ok none) := by
  refine ⟨h, fun outcome hoc => ?_⟩
  cases outcome <;> cases hoc

theorem tried_reply {log : List Sight} {reply : Reply} {value : Str} (h : exchanges log = [])
    (hvalue : dictGet reply.headers ("X-Cache" : Str) = some value)
    (hprovenance : Provenance s r log reply value) : Tried s r log (.ok (some reply)) := by
  refine ⟨h, fun outcome hoc => ?_⟩
  cases outcome with
  | error failure => cases hoc
  | ok reply' =>
    obtain rfl := Option.some.inj (Except.ok.inj hoc)
    exact truthful_ok (asked_of_nil h) hvalue hprovenance

/-- A hit that is passed on. -/
theorem emits_hit {log : List Sight} {body : Str} {isJson : Bool} (hlog : exchanges log = [])
    (hsuits : Suits r isJson) (hfound : Found log (projectKey r.canonical (.body isJson)) body) :
    (cachedResponse s r.canonical body isJson >>= fun reply =>
      (.ret (.ok (some reply)) : Program (Except Failure (Option Reply)))).Emits sight
        fun ms result => Tried s r (log ++ ms) result := by
  refine emits_inward_bind (cachedResponse_inward _ _ _) (cachedResponse_replies _ _ _) ?_
  intro ms reply hms ⟨hbody, hmedia, hvalue⟩
  have hnone : exchanges (log ++ ms) = [] := by rw [exchanges_append, hlog, hms]; rfl
  rw [Prog.emits_ret, List.append_nil]
  refine tried_reply hnone hvalue (.hit hnone hsuits ?_ hmedia)
  rw [hbody]
  exact hfound.append

/-- A conversion that is stored while its source is unchanged. -/
theorem emits_storeConversion {log : List Sight} {other body : Str} (hlog : exchanges log = [])
    (hfound : Found log r.otherKey other)
    (hconvert : convertBody s r.canonical r.wantsJson other = .ok body) :
    (storeConversion s r other body).Emits sight fun ms result => Tried s r (log ++ ms) result := by
  have hquiet : ∀ ms, exchanges ms = [] → exchanges (log ++ ms) = [] := by
    intro ms hms
    rw [exchanges_append, hlog, hms]
    rfl
  unfold storeConversion
  intro ttl
  cases ttl with
  | none => exact tried_none (hquiet _ rfl)
  | some ttl =>
    intro staleTtl committed
    cases committed with
    | false => exact tried_none (hquiet _ rfl)
    | true =>
      show Prog.Emits sight (scheduleMetadataEnrichment s r.canonical body r.wantsJson >>= _) _
      refine emits_inward_bind (scheduleMetadataEnrichment_inward _ _ _) (Prog.returns_true _) ?_
      intro ms _ hms _
      rw [Prog.pure_eq, Prog.emits_ret, List.append_nil]
      have hcommitted : Sight.committed [(r.otherKey, some other)]
          (conversionValues r ttl staleTtl body) ∈ log ++ Sight.committed [(r.otherKey, some other)]
            (conversionValues r ttl staleTtl body) :: ms :=
        List.mem_append_right _ List.mem_cons_self
      exact tried_reply (hquiet _ hms) rfl
        (.synthesized (hquiet _ hms) hfound.append hconvert hcommitted rfl)

theorem emits_tryServeFromCache :
    (tryServeFromCache s r).Emits sight fun ms result => Tried s r ms result := by
  unfold tryServeFromCache
  refine emits_cacheGetTwo fun log notFound cached hlog hmarker hcached => ?_
  dsimp only
  split
  · next hsome =>
    -- the marker of a project that does not exist
    obtain ⟨marker, hvalue⟩ := Option.isSome_iff_exists.mp hsome
    rw [Prog.pure_eq, Prog.emits_ret, List.append_nil]
    refine ⟨hlog, fun outcome hoc => ?_⟩
    cases outcome with
    | ok reply => cases hoc
    | error failure =>
      obtain rfl := Except.error.inj hoc
      refine ⟨asked_of_nil hlog, nofun, fun detail headers hoc' => ?_⟩
      obtain ⟨-, -, rfl⟩ := Failure.http.inj (Except.error.inj hoc')
      exact .inl ⟨rfl, hlog, marker, hmarker marker hvalue⟩
  split
  · next body hbody =>
    exact emits_hit hlog (.inl rfl) (hcached body (Option.filter_eq_some_iff.mp hbody).1)
  refine emits_cacheGet fun log' other hlog' hother => ?_
  have hboth : exchanges (log ++ log') = [] := by rw [exchanges_append, hlog, hlog']; rfl
  simp only [← List.append_assoc]
  split
  · next body hbody =>
    have hfound : Found (log ++ log') r.otherKey body :=
      (hother body (Option.filter_eq_some_iff.mp hbody).1).prepend
    unfold serveOther
    split
    · next hpass =>
      refine emits_hit hboth (.inr ⟨rfl, hpass⟩) ?_
      have hjson : r.wantsJson = true := (Bool.and_eq_true_iff.mp hpass).1
      simpa only [ProjectRequest.otherKey, hjson, Bool.not_true] using hfound
    · intro _
      show Prog.Emits sight _ fun ms result => Tried s r (log ++ log' ++ ms) result
      split
      · next hconvert => exact emits_storeConversion hboth hfound hconvert
      · next e _ =>
        show Tried s r (log ++ log' ++ []) (if isCaught e then .ok none else .error (.raised e))
        rw [List.append_nil]
        split
        · exact tried_none hboth
        · refine ⟨hboth, fun outcome hoc => ?_⟩
          cases outcome with
          | ok reply => cases hoc
          | error failure =>
            obtain rfl := Except.error.inj hoc
            exact truthful_error (asked_of_nil hboth) nofun
  · rw [Prog.pure_eq, Prog.emits_ret, List.append_nil]
    exact tried_none hboth

/-! ## From the upstream -/

section Upstream

variable {log : List Sight} {given : List (UpstreamRequest × Option UpstreamResponse)}
  {request : UpstreamRequest} {response : UpstreamResponse}

/-- What was seen up to an answer of the upstream. -/
structure Answered (s : Site) (r : ProjectRequest) (log : List Sight)
    (given : List (UpstreamRequest × Option UpstreamResponse)) (request : UpstreamRequest)
    (response : Option UpstreamResponse) : Prop where
  asked : ∀ x ∈ exchanges log, Asks s r log x.1
  last : exchanges log = given ++ [(request, response)]

/-- Looking around does not change what the upstream answered. -/
theorem Answered.append {answer : Option UpstreamResponse} {ms : List Sight}
    (h : Answered s r log given request answer) (hms : exchanges ms = []) :
    Answered s r (log ++ ms) given request answer := by
  have hsame : exchanges (log ++ ms) = exchanges log := by
    rw [exchanges_append, hms, List.append_nil]
  exact ⟨fun x hx => (h.asked x (hsame ▸ hx)).append, hsame.trans h.last⟩

/-- The next answer. -/
theorem Answered.next {answer : Option UpstreamResponse} (hasked : ∀ x ∈ exchanges log,
    Asks s r log x.1) (hgiven : exchanges log = given) (hrequest : Asks s r log request) :
    Answered s r (log ++ [.exchanged request answer]) given request answer := by
  have hall : exchanges (log ++ [.exchanged request answer]) = given ++ [(request, answer)] := by
    rw [exchanges_append, hgiven]
    rfl
  refine ⟨fun x hx => ?_, hall⟩
  rw [exchanges_append] at hx
  rcases List.mem_append.mp hx with hx | hx
  · exact (hasked x hx).append
  · rw [List.mem_singleton.mp hx]
    exact hrequest.append

/-- What follows an answer. -/
theorem emits_after {answer : Option UpstreamResponse} {p : Program Outcome}
    (h : Answered s r (log ++ [.exchanged request answer]) given request answer)
    (hp : Answered s r (log ++ [.exchanged request answer]) given request answer →
      p.Emits sight fun ms outcome =>
        Truthful s r (log ++ [.exchanged request answer] ++ ms) outcome) :
    p.Emits sight fun ms outcome =>
      Truthful s r (log ++ (sight (.httpGet request) answer ++ ms)) outcome := by
  refine (hp h).mono fun ms outcome htruthful => ?_
  rw [List.append_assoc] at htruthful
  exact htruthful

/-- A page that was made from a 200. -/
theorem emits_filled {body : Str} {isJson : Bool} {reply : Reply}
    (h : Answered s r log given request (some response)) (hretries : Retries s r given request)
    (hstatus : response.status = 200) (hmade : MadeFrom s r response reply)
    (hvalue : dictGet reply.headers ("X-Cache" : Str) = some ("MISS" : Str)) :
    (scheduleMetadataEnrichment s r.canonical body isJson >>= fun _ =>
      (.ret (.ok reply) : Program Outcome)).Emits sight
        fun ms outcome => Truthful s r (log ++ ms) outcome := by
  refine emits_inward_bind (scheduleMetadataEnrichment_inward _ _ _) (Prog.returns_true _) ?_
  intro ms _ hms _
  rw [Prog.emits_ret, List.append_nil]
  exact truthful_ok (h.append hms).asked hvalue (.filled (h.append hms).last hretries hstatus hmade)

/-- An answer that is not a 304. -/
theorem emits_answer (h : Answered s r log given request (some response))
    (hretries : Retries s r given request) :
    (answer s r response).Emits sight fun ms outcome => Truthful s r (log ++ ms) outcome := by
  have hraised : ∀ e, Truthful s r (log ++ []) (.error (.raised e)) := by
    intro e
    rw [List.append_nil]
    exact truthful_error h.asked nofun
  unfold answer
  split
  · next hstatus =>
    intro _
    show Truthful s r (log ++ []) (.error (projectNotFound r.canonical ("MISS" : Str)))
    rw [List.append_nil]
    refine ⟨h.asked, nofun, fun detail headers hoc => .inr ?_⟩
    obtain ⟨-, -, rfl⟩ := Failure.http.inj (Except.error.inj hoc)
    exact ⟨rfl, given, request, response, h.last, hstatus⟩
  split
  · next hnotFound _ =>
    rw [Prog.pure_eq, Prog.emits_ret, List.append_nil]
    exact truthful_error h.asked fun detail headers hoc => hnotFound (Failure.http.inj hoc).1
  next hok =>
  have hstatus : response.status = 200 := not_not.mp hok
  unfold storeFill
  dsimp only
  split
  · split
    · exact hraised _
    · next body hbody =>
      exact fun _ => emits_filled h hretries hstatus (.passthrough hbody rfl) rfl
  · split
    · exact hraised _
    · next jsonBody htmlBody hbodies =>
      exact fun _ => emits_filled h hretries hstatus (.synthesis hbodies rfl rfl) rfl

/-- The GET is repeated without validators. -/
theorem emits_refetch (h : Answered s r log [] request (some response))
    (hstatus : response.status = 304) :
    (refetch s r).Emits sight fun ms outcome => Truthful s r (log ++ ms) outcome := by
  have hagain : ∀ second, Answered s r (log ++ [.exchanged (upstreamRequest s r none none) second])
      [(request, some response)] (upstreamRequest s r none none) second :=
    fun second => .next h.asked h.last ⟨none, none, rfl, nofun, nofun⟩
  unfold refetch
  intro second
  cases second with
  | none => exact truthful_error (hagain none).asked nofun
  | some second =>
    refine emits_after (hagain _) fun hanswered => ?_
    show Prog.Emits sight (if second.status = 304 then _ else answer s r second) _
    split
    · rw [Prog.pure_eq, Prog.emits_ret, List.append_nil]
      refine truthful_error hanswered.asked fun detail headers hoc => ?_
      cases (Failure.http.inj hoc).1
    · exact emits_answer hanswered (.inr ⟨request, response, rfl, hstatus, rfl⟩)

/-- A 304 with a body to serve. -/
theorem emits_refresh {etag lastMod otherStale : Option Str} {isJson : Bool} {body : Str}
    (h : Answered s r log [] request (some response)) (hstatus : response.status = 304)
    (hsuits : Suits r isJson) (hsurvives : Survives s r log isJson body) :
    (refresh s r etag lastMod response isJson body otherStale).Emits sight
      fun ms outcome => Truthful s r (log ++ ms) outcome := by
  have hreply : ∀ before, exchanges before = [] →
      (cachedResponse s r.canonical body isJson >>= fun reply =>
        (.ret (.ok { reply with
          headers := dictSet reply.headers ("X-Cache" : Str) ("REVALIDATED" : Str) }) :
            Program Outcome)).Emits sight
        fun ms outcome => Truthful s r (log ++ (before ++ ms)) outcome := by
    intro before hbefore
    refine emits_inward_bind (cachedResponse_inward _ _ _) (cachedResponse_replies _ _ _) ?_
    intro ms reply hms ⟨hbody, hmedia, _⟩
    rw [Prog.emits_ret, List.append_nil]
    have hquiet : exchanges (before ++ ms) = [] := by rw [exchanges_append, hbefore, hms]; rfl
    refine truthful_ok (h.append hquiet).asked (dictGet_dictSet_self _ _ _)
      (.revalidated (h.append hquiet).last hstatus hsuits ?_ hmedia)
    rw [hbody]
    rcases hsurvives with hfound | ⟨hjson, other, hfound, hconvert⟩
    · exact .inl hfound.append
    · exact .inr ⟨hjson, other, hfound.append, hconvert⟩
  unfold refresh
  refine emits_inward_bind (p := call _) (inward_op rfl) (Prog.returns_true _) ?_
  intro ms _ hms _
  split
  · refine emits_inward_bind (p := call _) (inward_op rfl) (Prog.returns_true _) ?_
    intro ms' _ hms' _
    have hquiet : exchanges (ms ++ ms') = [] := by rw [exchanges_append, hms, hms']; rfl
    refine (hreply (ms ++ ms') hquiet).mono fun rest outcome htruthful => ?_
    simpa only [List.append_assoc] using htruthful
  · exact hreply ms hms

/-- The 304 branch. -/
theorem emits_notModified {etag lastMod : Option Str}
    (h : Answered s r log [] request (some response)) (hstatus : response.status = 304) :
    (notModified s r etag lastMod response).Emits sight
      fun ms outcome => Truthful s r (log ++ ms) outcome := by
  unfold notModified
  refine emits_cacheGetTwo fun ms stale otherStale hms hstale hother => ?_
  simp only [← List.append_assoc]
  have hanswered := h.append hms
  cases stale with
  | some body =>
    exact emits_refresh hanswered hstatus (.inl rfl) (.inl (hstale body rfl).prepend)
  | none =>
    cases otherStale with
    | none => exact emits_refetch hanswered hstatus
    | some other =>
      have hfound : Found (log ++ ms) r.otherStaleKey other := (hother other rfl).prepend
      show Prog.Emits sight (synthesizeStale s r etag lastMod response other) _
      unfold synthesizeStale
      split
      · next hpass =>
        -- HTML is served as it is
        refine emits_refresh hanswered hstatus (.inr ⟨rfl, hpass⟩) (.inl ?_)
        have hjson : r.wantsJson = true := (Bool.and_eq_true_iff.mp hpass).1
        simpa only [ProjectRequest.otherStaleKey, hjson, Bool.not_true] using hfound
      split
      · next e _ =>
        split
        · exact emits_refetch hanswered hstatus
        · rw [Prog.pure_eq, Prog.emits_ret, List.append_nil]
          exact truthful_error hanswered.asked nofun
      · next body hconvert =>
        intro _
        exact emits_refresh hanswered hstatus (.inl rfl) (.inr ⟨rfl, other, hfound, hconvert⟩)

theorem emits_conditionalGet {etag lastMod : Option Str} (hlog : exchanges log = [])
    (hetag : ∀ value, etag = some value → Found log r.etagKey value)
    (hlastMod : ∀ value, lastMod = some value → Found log r.lastmodKey value) :
    (conditionalGet s r etag lastMod).Emits sight
      fun ms outcome => Truthful s r (log ++ ms) outcome := by
  have hfirst : ∀ first, Answered s r (log ++ [.exchanged (upstreamRequest s r etag lastMod) first])
      [] (upstreamRequest s r etag lastMod) first :=
    fun first => .next (asked_of_nil hlog) hlog ⟨etag, lastMod, rfl, hetag, hlastMod⟩
  unfold conditionalGet
  intro first
  cases first with
  | none => exact truthful_error (hfirst none).asked nofun
  | some first =>
    refine emits_after (hfirst _) fun hanswered => ?_
    show Prog.Emits sight (if first.status = 304 then _ else answer s r first) _
    split
    · next hstatus => exact emits_notModified hanswered hstatus
    · exact emits_answer hanswered (.inl rfl)

end Upstream

theorem emits_fetchUpstream :
    (fetchUpstream s r).Emits sight fun ms outcome => Truthful s r ms outcome := by
  unfold fetchUpstream
  refine emits_inward_bind (p := call _) (inward_op rfl) (Prog.returns_true _) ?_
  intro log stale hlog _
  split
  · refine emits_cacheGetTwo fun ms etag lastMod hms hetag hlastMod => ?_
    simp only [← List.append_assoc]
    have hquiet : exchanges (log ++ ms) = [] := by rw [exchanges_append, hlog, hms]; rfl
    exact emits_conditionalGet hquiet (fun v hv => (hetag v hv).prepend)
      fun v hv => (hlastMod v hv).prepend
  · exact emits_conditionalGet hlog nofun nofun

/-! ## Requests -/

/-- What is done after the cache was tried. -/
theorem emits_tried {k : Program Outcome}
    (hk : k.Emits sight fun ms outcome => Truthful s r ms outcome) :
    (tryServeFromCache s r >>= fun
      | .error e => return .error e
      | .ok (some hit) => return .ok hit
      | .ok none => k).Emits sight fun ms outcome => Truthful s r ms outcome := by
  refine emits_tryServeFromCache.bind fun log result ⟨hlog, htruthful⟩ => ?_
  cases result with
  | error failure =>
    show Truthful s r (log ++ []) (.error failure)
    rw [List.append_nil]
    exact htruthful (.error failure) rfl
  | ok hit =>
    cases hit with
    | some reply =>
      show Truthful s r (log ++ []) (.ok reply)
      rw [List.append_nil]
      exact htruthful (.ok reply) rfl
    | none => exact hk.mono fun ms outcome h => h.prepend hlog

/-- The ways through a request tell the truth. -/
theorem emits_serveProject (pid : ℕ) :
    (serveProject s pid r).Emits sight fun ms outcome => Truthful s r ms outcome := by
  unfold serveProject
  refine emits_tried ?_
  unfold withLock
  refine emits_inward_bind (p := call _) (inward_op rfl) (Prog.returns_true _) ?_
  intro log _ hlog _
  have hfill : (fill s r).Emits sight fun ms outcome => Truthful s r ms outcome :=
    emits_tried emits_fetchUpstream
  refine hfill.bind fun ms outcome h _ => ?_
  show Truthful s r (log ++ (ms ++ [])) outcome
  rw [List.append_nil]
  exact h.prepend hlog

/-- **Replies are truthful.** In every run of the service, in any number of processes and over
either backend, what a request for a project ends with is what the calls that it made in the run
say. -/
theorem replies_truthful {B : Backend} {upstream : Upstream} {pid t : ℕ} {name : Str}
    {accept : Option Str} {result : TaskResult}
    {c₀ c : Config Op Ret World (ℕ × ServiceTask) TaskResult}
    {evs : List (Event Op Ret (ℕ × ServiceTask))} (hinit : (deployment s B upstream).Init c₀)
    (hrun : (deployment s B upstream).Run c₀ evs c)
    (htask : c.task t = some ((pid, .project name accept), .ret result)) :
    ∃ outcome, result = outcome.map some ∧
      Truthful s (projectRequest s name accept) (picked sight (history t evs)) outcome := by
  refine hrun.emits_ret hinit htask (Q := fun ms result => ∃ outcome, result = outcome.map some ∧
    Truthful s (projectRequest s name accept) ms outcome) ?_
  refine (emits_serveProject (r := projectRequest s name accept) pid).bind fun ms outcome h => ?_
  rw [Prog.pure_eq, Prog.emits_ret, List.append_nil]
  exact ⟨outcome, rfl, h⟩

/-- A request that fills the cache, and one that is served from it. -/
def pageTwice : Option (List (Event Op Ret (ℕ × ServiceTask)) ×
    List (Event Op Ret (ℕ × ServiceTask)) × TaskResult × World) := do
  let (evs, _, w) ← Readiness.pageDriver.finish {} 0
    (Readiness.pageService.prog Readiness.pageRequest) emptyWorld
  let (evs', result, w) ← Readiness.pageDriver.finish {} 1
    (Readiness.pageService.prog Readiness.pageRequest) w
  return (evs, evs', result, w)

/-- The second reply says that it is a hit. -/
def saysHit : TaskResult → Bool
  | .ok (some reply) => dictGet reply.headers ("X-Cache" : Str) = some ("HIT" : Str)
  | _ => false

theorem pageTwice_spec : pageTwice.any (fun (_, _, result, _) => saysHit result) = true := by
  decide +kernel

theorem replies_truthful_page : ∃ (c₀ c : Config Op Ret World (ℕ × ServiceTask) TaskResult)
    (evs : List (Event Op Ret (ℕ × ServiceTask))) (reply : Reply),
    Readiness.pageService.Init c₀ ∧ Readiness.pageService.Run c₀ evs c ∧
      c.task 1 = some (Readiness.pageRequest, .ret (.ok (some reply))) ∧
      Provenance Readiness.pageSite
        (projectRequest Readiness.pageSite Readiness.one (some contentTypeJson))
        (picked sight (history 1 evs)) reply ("HIT" : Str) := by
  obtain ⟨⟨evs, evs', result, w⟩, htwice, hhit⟩ := (Option.any_eq_true _ _).mp pageTwice_spec
  simp only [pageTwice, Option.bind_eq_bind, Option.bind_eq_some_iff, Option.pure_def,
    Option.some.injEq, Prod.mk.injEq, Prod.exists] at htwice
  obtain ⟨_, first, w₁, hfirst, _, _, _, hsecond, rfl, rfl, rfl, rfl⟩ := htwice
  have hquiet : Readiness.pageService.Quiet (Driver.boot emptyWorld) := fun _ _ _ _ h => nomatch h
  have hinit : Readiness.pageService.Init (Driver.boot emptyWorld) :=
    ⟨fresh_emptyWorld, fun _ => rfl⟩
  obtain ⟨hrun₁, hquiet₁⟩ := Driver.complete (.nil _) hquiet rfl hfirst
  obtain ⟨hrun₂, -⟩ := Driver.complete hrun₁ hquiet₁ (Config.set_task_of_ne one_ne_zero) hsecond
  obtain ⟨outcome, hresult, htruthful⟩ := replies_truthful hinit hrun₂ Config.set_task_self
  cases outcome with
  | error failure =>
    rw [hresult] at hhit
    cases hhit
  | ok reply =>
    obtain ⟨value, hvalue, hprovenance⟩ := htruthful.reply reply rfl
    rw [hresult] at hhit
    obtain rfl := Option.some.inj (hvalue.symm.trans (of_decide_eq_true hhit))
    exact ⟨_, _, _, reply, hinit, hrun₂, by rw [Config.set_task_self, hresult]; rfl, hprovenance⟩

end ProxyCache.Theorems.ReplySources
