import ProxyCache.App.Batches
import ProxyCache.Theorems.Freshness
import ProxyCache.Theorems.ReplySources

/-!
# A fill is all or nothing

One request, from any state of the cache and with any answers of the upstream. `Course` lists the
ways through the handler, with the batches that each of them stores.
-/

namespace ProxyCache.Theorems.AllOrNothing

open ProxyCache.Lib ProxyCache.Python ProxyCache.App
open ProxyCache.Theorems.ReplySources (Sight sight Found Suits Survives Truthful)

variable {s : Site} {r : ProjectRequest} {response : UpstreamResponse} {ms : List Mark}
  {log : List Sight} {outcome : Outcome} {w w' : World}

/-! ## Before and after a request -/

/-- The answer that the request is decided by. -/
def lastAnswer (ms : List Mark) : Option UpstreamResponse := (answers ms).getLast?.join

/-- The upstream does not know the project. -/
def UpstreamNotFound (ms : List Mark) : Prop :=
  ∃ response, lastAnswer ms = some response ∧ response.status = 404

/-- The bodies that a 200 is stored as: of its own format, or of both. -/
inductive FillBodies (s : Site) (r : ProjectRequest) (response : UpstreamResponse) :
    List Write → Prop
  | one (body : Str) : FillBodies s r response
      (bodyValues s r.canonical (isUpstreamJson response)
        (effectiveProjectTtl s.settings response.cacheControl) body)
  | both (isJson : Bool) (body otherBody : Str) : FillBodies s r response
      (bodyValues s r.canonical isJson (effectiveProjectTtl s.settings response.cacheControl) body
        ++ bodyValues s r.canonical (!isJson)
          (effectiveProjectTtl s.settings response.cacheControl) otherBody)

/-- The marker of a project that does not exist. -/
def notFoundMarker (s : Site) (r : ProjectRequest) : Write :=
  ⟨r.notFoundKey, s.settings.cache404Ttl, ("1" : Str)⟩

/-- **All or nothing**, of a request that made the calls `ms` and got `w` to `w'`. -/
structure Atomic (s : Site) (C : HeaderCodec) (r : ProjectRequest) (ms : List Mark)
    (outcome : Outcome) (w w' : World) : Prop where
  /-- An exception leaves everything as it was, up to expiry. -/
  failed : (∃ e, (outcome >>= send s.U C) = .error e) → ¬ UpstreamNotFound ms → Kept w w'
  /-- An upstream 404 leaves its marker. -/
  notFound : UpstreamNotFound ms → Follows w [[notFoundMarker s r]] w'
  /-- A 200 leaves one batch, of its validators and its bodies. -/
  filled : ∀ response, lastAnswer ms = some response → response.status = 200 →
    (∃ reply, (outcome >>= send s.U C) = .ok reply) →
    ∃ bodies, FillBodies s r response bodies ∧
      Follows w [validatorValues s r response.etag response.lastModified ++ bodies] w'

/-- The page for the client that is made of a 200: its text, or the other format. -/
def MadeOf (s : Site) (r : ProjectRequest) (response : UpstreamResponse) (page : Str) : Prop :=
  let isJson := isUpstreamJson response
  if isJson == r.wantsJson || (!isJson && r.allowHtmlPassthrough) then
    rewriteSimpleBody s.U s.D s.settings response.text isJson = .ok page
  else ∃ jsonBody htmlBody,
    synthesizeBodies s r.canonical isJson response.content response.text =
      .ok (jsonBody, htmlBody) ∧ page = if isJson then htmlBody else jsonBody

/-- A page that is replied with after something was stored: `log` is what the request saw of the
cache. -/
inductive StoredPage (s : Site) (r : ProjectRequest) (log : List Sight) (ms : List Mark) :
    Str → Prop
  | converted {other page : Str} : (r.wantsJson && r.allowHtmlPassthrough) = false →
      Found log r.otherKey other → convertBody s r.canonical r.wantsJson other = .ok page →
      StoredPage s r log ms page
  | revalidated {response : UpstreamResponse} {isJson : Bool} {page : Str} :
      some response ∈ answers ms → response.status = 304 → Suits r isJson →
      Survives s r log isJson page → StoredPage s r log ms page
  | filled {response : UpstreamResponse} {page : Str} : some response ∈ answers ms →
      response.status = 200 → MadeOf s r response page → StoredPage s r log ms page

/-- What is sent after something was stored can be encoded: the content type of a 200, the name of
a project that is revalidated, and the page. -/
structure Encodable (s : Site) (C : HeaderCodec) (r : ProjectRequest) (log : List Sight)
    (ms : List Mark) : Prop where
  contentType : ∀ response, some response ∈ answers ms → response.status = 200 →
    C.encodes (response.contentType.getD []) = true
  name : (∃ response, some response ∈ answers ms ∧ response.status = 304) →
    C.encodes r.canonical = true
  page : ∀ page, StoredPage s r log ms page → encodable s.U page = true

/-! ## The ways through the handler -/

/-- The headers of the reply are ASCII, except that `value` may be among them. -/
def SendsWith (value : Str) (reply : Reply) : Prop :=
  ∀ h ∈ reply.headers, h.2.all isAscii = true ∨ h.2 = value

/-- A reply that was converted from the other format. -/
structure IsConverted (r : ProjectRequest) (reply : Reply) : Prop where
  sends : SendsWith [] reply
  xCache : dictGet reply.headers ("X-Cache" : Str) = some ("HIT-synthesized" : Str)
  other : (r.wantsJson && r.allowHtmlPassthrough) = false

/-- What follows an answer that is the last one. -/
inductive Settles (s : Site) (r : ProjectRequest) (response : UpstreamResponse) :
    List Mark → Outcome → Prop
  | failed {failure : Failure} : response.status ≠ 404 → Settles s r response [] (.error failure)
  | notFound {failure : Failure} : response.status = 404 →
      Settles s r response [.stored [notFoundMarker s r]] (.error failure)
  | filled {bodies : List Write} {reply : Reply} : response.status = 200 →
      FillBodies s r response bodies → SendsWith (response.contentType.getD []) reply →
      MadeOf s r response reply.body → Settles s r response
        [.stored (validatorValues s r response.etag response.lastModified ++ bodies)] (.ok reply)
  | revalidated {ms : List Mark} {reply : Reply} : response.status = 304 → answers ms = [] →
      SendsWith r.canonical reply →
      dictGet reply.headers ("X-Cache" : Str) = some ("REVALIDATED" : Str) →
      Settles s r response ms (.ok reply)

/-- The ways through a fetch; `before` are the answers that were given up. -/
inductive Fetched (s : Site) (r : ProjectRequest) : List Mark → Outcome → Prop
  | unreachable (before : List Mark) {failure : Failure} : batches before = [] →
      Fetched s r (before ++ [.answered none]) (.error failure)
  | settled (before : List Mark) {ms : List Mark} {response : UpstreamResponse}
      {outcome : Outcome} : batches before = [] → Settles s r response ms outcome →
      Fetched s r (before ++ .answered (some response) :: ms) outcome

/-- The ways through a request. -/
inductive Course (s : Site) (r : ProjectRequest) : List Mark → Outcome → Prop
  | cached {outcome : Outcome} : Course s r [] outcome
  | converted {values : List Write} {reply : Reply} : IsConverted r reply →
      Course s r [.stored values] (.ok reply)
  | fetched {ms : List Mark} {outcome : Outcome} : Fetched s r ms outcome → Course s r ms outcome

/-! ## Replies -/

/-- A reply can be sent when the page and the text in its headers can. -/
theorem send_of_sendsWith {U : Unicode} {C : HeaderCodec} {value : Str} {reply : Reply}
    (h : SendsWith value reply) (hvalue : C.encodes value = true)
    (hbody : encodable U reply.body = true) : send U C reply = .ok reply := by
  unfold send
  rw [if_pos]
  rw [hbody, Bool.true_and, List.all_eq_true]
  intro header hmem
  rcases h header hmem with hascii | heq
  · exact C.ascii _ hascii
  · rw [heq]
    exact hvalue

/-- A cached response names the project. -/
theorem cachedResponse_sendsWith (canonical body : Str) (isJson : Bool) :
    (cachedResponse s canonical body isJson).Returns (SendsWith canonical) := by
  have hplain : SendsWith canonical
      { body, mediaType := mediaTypeOf isJson, headers :=
          [xCache ("HIT" : Str), (("X-Cache-Key" : Str), canonical), xSynthesis ("0" : Str)] } := by
    intro h hmem
    simp only [List.mem_cons, List.not_mem_nil, or_false] at hmem
    rcases hmem with rfl | rfl | rfl
    · exact .inl (by decide)
    · exact .inr rfl
    · exact .inl (by decide)
  unfold cachedResponse
  split
  · refine Prog.Returns.bind_of_forall _ fun ttl => ?_
    cases ttl with
    | none => exact Prog.Returns.bind_of_forall _ fun _ => hplain
    | some ttl =>
      intro h hmem
      rcases List.mem_append.mp hmem with hmem | hmem
      · exact hplain h hmem
      · rw [List.mem_singleton.mp hmem]
        refine .inl ?_
        rw [List.all_append, str_ascii, Bool.and_true]
        decide
  · exact hplain

/-- A header that is set to an ASCII text. -/
theorem SendsWith.dictSet {value : Str} {reply : Reply} (h : SendsWith value reply)
    {name text : Str} (htext : text.all isAscii = true) :
    SendsWith value { reply with headers := dictSet reply.headers name text } := by
  intro header hmem
  dsimp only at hmem
  unfold Python.dictSet at hmem
  split at hmem
  · obtain ⟨header', hmem', rfl⟩ := List.mem_map.mp hmem
    split
    · exact .inl htext
    · exact h header' hmem'
  · rcases List.mem_append.mp hmem with hmem | hmem
    · exact h header hmem
    · rw [List.mem_singleton.mp hmem]
      exact .inl htext

theorem missHeaders_sendsWith {body mediaType synthesis : Str}
    (h : synthesis.all isAscii = true) :
    SendsWith (response.contentType.getD [])
      { body, mediaType, headers := missHeaders response synthesis } := by
  intro header hmem
  simp only [missHeaders, List.mem_cons, List.not_mem_nil, or_false] at hmem
  rcases hmem with rfl | rfl | rfl
  · exact .inl (by decide)
  · exact .inl h
  · exact .inr rfl

/-! ## From the cache -/

theorem silent_of_calls {P : Op → Prop} {p : Program α} (h : p.Calls fun o => o.isRead ∧ P o) :
    p.Calls (Prog.Silent mark) :=
  h.mono fun _ ho => silent_of_isRead ho.1

/-- A part that only reads, and what follows it. -/
theorem emits_read_bind {Q : List Mark → β → Prop} {P : Op → Prop} {p : Program α}
    {f : α → Program β} (hp : p.Calls fun o => o.isRead ∧ P o)
    (hf : ∀ a, (f a).Emits mark Q) : (p >>= f).Emits mark Q :=
  Prog.emits_silent_bind (silent_of_calls hp) (Prog.returns_true p) fun a _ => hf a

/-- A cached response that is passed on. -/
theorem emits_cachedResponse {Q : List Mark → α → Prop} {canonical body : Str} {isJson : Bool}
    {f : Reply → Program α} (hf : ∀ reply, SendsWith canonical reply → (f reply).Emits mark Q) :
    (cachedResponse s canonical body isJson >>= f).Emits mark Q :=
  Prog.emits_silent_bind (silent_of_calls (cachedResponse_calls s _ _ _))
    (cachedResponse_sendsWith canonical body isJson) hf

/-- A converted reply does not name the project. -/
theorem converted_sendsWith (body mediaType : Str) : SendsWith []
    { body, mediaType, headers := [xCache ("HIT-synthesized" : Str), xSynthesis ("1" : Str)] } := by
  intro h hmem
  simp only [List.mem_cons, List.not_mem_nil, or_false] at hmem
  rcases hmem with rfl | rfl <;> exact .inl (by decide)

/-- Serving from the cache stores nothing, unless it converts. -/
def Tried (r : ProjectRequest) : List Mark → Except Failure (Option Reply) → Prop
  | [], _ => True
  | [.stored _], .ok (some reply) => IsConverted r reply
  | _, _ => False

theorem emits_storeConversion (other body : Str)
    (hother : (r.wantsJson && r.allowHtmlPassthrough) = false) :
    (storeConversion s r other body).Emits mark (Tried r) := by
  unfold storeConversion
  rintro (_ | otherTtl)
  · trivial
  intro otherStaleTtl committed
  cases committed with
  | false => trivial
  | true =>
    change (scheduleMetadataEnrichment s r.canonical body r.wantsJson >>= _).Emits mark _
    refine emits_read_bind (scheduleMetadataEnrichment_calls s _ r.canonical _ _) fun _ => ?_
    exact ⟨converted_sendsWith _ _, rfl, hother⟩

theorem emits_serveOther (other : Str) : (serveOther s r other).Emits mark (Tried r) := by
  unfold serveOther
  split
  · exact emits_cachedResponse fun _ _ => trivial
  next hother =>
  intro _
  dsimp only
  cases convertBody s r.canonical r.wantsJson other with
  | ok body => exact emits_storeConversion other body (by simpa using hother)
  | error e => trivial

theorem emits_tryServeFromCache : (tryServeFromCache s r).Emits mark (Tried r) := by
  unfold tryServeFromCache
  refine emits_read_bind (cacheGetTwo_calls (ownKey s _ _) (ownKey s _ _)) ?_
  rintro ⟨notFound, cached⟩
  dsimp only
  split
  · trivial
  split
  · exact emits_cachedResponse fun _ _ => trivial
  refine emits_read_bind (cacheGet_calls (ownKey s r.canonical _)) fun other => ?_
  split
  · exact emits_serveOther _
  · trivial

/-! ## From the upstream -/

/-- What is done after an answer that is not a 304. -/
theorem emits_storeFill (hstatus : response.status = 200) :
    (storeFill s r response).Emits mark (Settles s r response) := by
  have hschedule : ∀ {body : Str} {isJson : Bool} {values : List Write} {reply : Reply},
      Settles s r response [.stored values] (.ok reply) →
      (scheduleMetadataEnrichment s r.canonical body isJson >>= fun _ =>
        (.ret (.ok reply) : Program Outcome)).Emits mark
          fun ms outcome => Settles s r response ([.stored values] ++ ms) outcome := by
    intro body isJson values reply h
    exact emits_read_bind (scheduleMetadataEnrichment_calls s _ r.canonical _ _) fun _ => h
  have hfailed : ∀ failure, Settles s r response [] (.error failure) :=
    fun failure => .failed (by omega)
  unfold storeFill
  dsimp only
  split
  · next hsuits =>
    split
    · exact hfailed _
    · next hbody =>
      refine fun _ => hschedule (.filled hstatus (.one _) (missHeaders_sendsWith (by decide)) ?_)
      unfold MadeOf
      rw [if_pos hsuits]
      exact hbody
  · next hsuits =>
    split
    · exact hfailed _
    · next hbodies =>
      intro _
      refine hschedule (.filled hstatus ?_ (missHeaders_sendsWith (by decide)) ?_)
      · split
        · exact .both true _ _
        · exact .both false _ _
      · unfold MadeOf
        rw [if_neg hsuits]
        exact ⟨_, _, hbodies, rfl⟩

theorem emits_answer : (answer s r response).Emits mark (Settles s r response) := by
  unfold answer
  split
  · next hstatus => exact fun _ => .notFound hstatus
  split
  · next hnotFound _ => exact .failed hnotFound
  · next hok => exact emits_storeFill (not_not.mp hok)

theorem answers_append (ms ms' : List Mark) : answers (ms ++ ms') = answers ms ++ answers ms' :=
  List.filterMap_append

/-- A reply that was revalidated. -/
theorem emits_revalidated (hstatus : response.status = 304) {body : Str} {isJson : Bool}
    (before : List Mark) (hbefore : answers before = []) :
    (do let reply ← cachedResponse s r.canonical body isJson
        return .ok { reply with
          headers := dictSet reply.headers ("X-Cache" : Str) ("REVALIDATED" : Str) } :
        Program Outcome).Emits mark
      fun ms outcome => Settles s r response (before ++ ms) outcome := by
  refine emits_cachedResponse fun reply hreply => ?_
  rw [Prog.pure_eq, Prog.emits_ret, List.append_nil]
  exact .revalidated hstatus hbefore (hreply.dictSet (by decide)) (dictGet_dictSet_self _ _ _)

/-- A batch, and what follows it. -/
theorem emits_setexMany {Q : List Mark → Outcome → Prop} {values : List Write}
    {f : Unit → Program Outcome}
    (hf : (f ()).Emits mark fun ms outcome => Q (.stored values :: ms) outcome) :
    (call (.setexMany values) >>= f).Emits mark Q := fun _ => hf

/-- A 304 with a body to serve. -/
theorem emits_refresh (hstatus : response.status = 304) {etag lastMod otherStale : Option Str}
    {responseJson : Bool} {body : Str} (before : List Mark) (hbefore : answers before = []) :
    (App.refresh s r etag lastMod response responseJson body otherStale).Emits mark
      fun ms outcome => Settles s r response (before ++ ms) outcome := by
  unfold App.refresh
  dsimp only
  generalize refreshedValues s r etag lastMod _ responseJson body otherStale = values
  refine emits_setexMany ?_
  have hstored : ∀ values, answers (before ++ [.stored values]) = [] := fun values => by
    rw [answers_append, hbefore]
    rfl
  split
  · refine Prog.Emits.bind (P := fun ms _ => answers ms = []) ?_ fun ms _ hms => ?_
    · rintro (_ | _) <;> rfl
    · refine (emits_revalidated hstatus (before ++ .stored values :: ms) ?_).mono ?_
      · rw [List.append_cons, answers_append, hstored, hms]
        rfl
      · intro ms' outcome h
        simpa only [List.append_assoc, List.cons_append] using h
  · refine (emits_revalidated hstatus (before ++ [.stored values]) (hstored values)).mono ?_
    intro ms outcome h
    simpa only [List.append_assoc, List.singleton_append] using h

/-- The GET without validators. -/
theorem emits_refetch (before : List Mark) (hbefore : batches before = []) :
    (refetch s r).Emits mark fun ms outcome => Fetched s r (before ++ ms) outcome := by
  unfold refetch
  rintro (_ | response)
  · exact .unreachable before hbefore
  show Prog.Emits mark (if response.status = 304 then _ else answer s r response)
    fun ms outcome => Fetched s r (before ++ .answered (some response) :: ms) outcome
  split
  · exact .settled before hbefore (.failed (by omega))
  · exact emits_answer.mono fun ms outcome h => .settled before hbefore h

/-- A 304 when only the other format has a stale copy. -/
theorem emits_synthesizeStale (hstatus : response.status = 304) {etag lastMod : Option Str}
    {other : Str} :
    (synthesizeStale s r etag lastMod response other).Emits mark
      fun ms outcome => Fetched s r (.answered (some response) :: ms) outcome := by
  have hrefresh : ∀ (before : List Mark) {responseJson : Bool} {body : Str}
      {otherStale : Option Str}, answers before = [] →
      (App.refresh s r etag lastMod response responseJson body otherStale).Emits mark
        fun ms outcome => Fetched s r (.answered (some response) :: (before ++ ms)) outcome :=
    fun before _ _ _ hbefore => (emits_refresh hstatus before hbefore).mono fun ms outcome h =>
      .settled [] rfl h
  unfold synthesizeStale
  split
  · exact hrefresh [] rfl
  split
  · split
    · exact emits_refetch [.answered (some response)] rfl
    · exact .settled [] rfl (.failed (by omega))
  · exact emits_setexMany (hrefresh [_] rfl)

/-- The 304 branch. -/
theorem emits_notModified (hstatus : response.status = 304) {etag lastMod : Option Str} :
    (notModified s r etag lastMod response).Emits mark
      fun ms outcome => Fetched s r (.answered (some response) :: ms) outcome := by
  unfold notModified
  refine emits_read_bind (cacheGetTwo_calls (ownKey s r.canonical _) (ownKey s r.canonical _)) ?_
  rintro ⟨stale, otherStale⟩
  dsimp only
  split
  · exact (emits_refresh hstatus [] rfl).mono fun ms outcome h =>
      .settled [] rfl h
  · exact emits_synthesizeStale hstatus
  · exact emits_refetch [.answered (some response)] rfl

theorem emits_fetchUpstream : (fetchUpstream s r).Emits mark (Fetched s r) := by
  have hget : ∀ etag lastMod, (conditionalGet s r etag lastMod).Emits mark (Fetched s r) := by
    intro etag lastMod
    unfold conditionalGet
    rintro (_ | response)
    · exact .unreachable [] rfl
    show Prog.Emits mark
      (if response.status = 304 then notModified s r etag lastMod response else answer s r response)
      fun ms outcome => Fetched s r (.answered (some response) :: ms) outcome
    split
    · next hstatus => exact emits_notModified hstatus
    · exact emits_answer.mono fun ms outcome h => .settled [] rfl h
  have hexists : (call (.existsAny [r.staleKey, r.otherStaleKey])).Calls
      fun o => o.isRead ∧ True := ⟨⟨rfl, trivial⟩, fun _ => trivial⟩
  unfold fetchUpstream
  refine emits_read_bind hexists fun found => ?_
  split
  · refine emits_read_bind (cacheGetTwo_calls (ownKey s r.canonical _) (ownKey s r.canonical _)) ?_
    exact fun validators => hget _ _
  · exact hget _ _

/-! ## The request -/

/-- After the cache, either it is served from there or nothing was stored. -/
theorem emits_tried {k : Program Outcome} (hk : k.Emits mark (Course s r)) :
    (tryServeFromCache s r >>= fun result =>
      match result with
      | .error e => (.ret (.error e) : Program Outcome)
      | .ok (some hit) => .ret (.ok hit)
      | .ok none => k).Emits mark (Course s r) := by
  refine emits_tryServeFromCache.bind fun ms result htried => ?_
  match ms, result, htried with
  | [], .error e, _ => exact .cached
  | [], .ok (some hit), _ => exact .cached
  | [], .ok none, _ => exact hk
  | [.stored values], .ok (some reply), hreply => exact .converted hreply

/-- **The ways through a request.** -/
theorem emits_serveProject (pid : ℕ) : (serveProject s pid r).Emits mark (Course s r) := by
  unfold serveProject
  refine emits_tried ?_
  have hfill : (fill s r).Emits mark (Course s r) :=
    emits_tried (emits_fetchUpstream.mono fun ms outcome h => .fetched h)
  unfold withLock
  intro _
  refine hfill.bind fun ms outcome h => ?_
  intro _
  show Course s r (ms ++ []) outcome
  rw [List.append_nil]
  exact h

/-! ## The main result -/

theorem batches_append (ms ms' : List Mark) : batches (ms ++ ms') = batches ms ++ batches ms' :=
  List.filterMap_append

theorem Settles.answers_eq_nil (h : Settles s r response ms outcome) : answers ms = [] := by
  cases h with
  | revalidated _ hanswers => exact hanswers
  | _ => rfl

theorem lastAnswer_settled (before : List Mark) (h : answers ms = []) :
    lastAnswer (before ++ .answered (some response) :: ms) = some response := by
  have hlast : answers (.answered (some response) :: ms) = [some response] :=
    congrArg (some response :: ·) h
  rw [lastAnswer, answers_append, hlast, List.getLast?_append]
  rfl

theorem mem_answers_settled (before : List Mark) :
    some response ∈ answers (before ++ .answered (some response) :: ms) := by
  rw [answers_append]
  exact List.mem_append_right _ List.mem_cons_self

/-- Nothing is stored by a request that gets no answer. -/
theorem atomic_of_kept {C : HeaderCodec} (hkept : Kept w w')
    (hnone : ∀ response, lastAnswer ms = some response → response.status ≠ 404)
    (hok : ∀ response, lastAnswer ms = some response → response.status = 200 →
      ∃ failure, outcome = .error failure) : Atomic s C r ms outcome w w' where
  failed _ _ := hkept
  notFound := fun ⟨response, hlast, hstatus⟩ => absurd hstatus (hnone response hlast)
  filled response hlast hstatus := by
    rintro ⟨reply, hreply⟩
    obtain ⟨failure, rfl⟩ := hok response hlast hstatus
    cases hreply

/-- A converted page was read in the other format. -/
theorem storedPage_of_converted {reply : Reply} (hreply : IsConverted r reply)
    (h : Truthful s r log (.ok reply)) : StoredPage s r log ms reply.body := by
  obtain ⟨value, hvalue, hprovenance⟩ := h.reply reply rfl
  have hsame : value = ("HIT-synthesized" : Str) :=
    Option.some.inj (hvalue.symm.trans hreply.xCache)
  cases hprovenance with
  | synthesized _ hfound hconvert => exact .converted hreply.other hfound hconvert
  | hit | revalidated | filled => exact absurd hsame (by decide)

/-- A revalidated page is a stale copy, or was converted from one. -/
theorem storedPage_of_revalidated {reply : Reply} (hmem : some response ∈ answers ms)
    (hstatus : response.status = 304)
    (hcache : dictGet reply.headers ("X-Cache" : Str) = some ("REVALIDATED" : Str))
    (h : Truthful s r log (.ok reply)) : StoredPage s r log ms reply.body := by
  obtain ⟨value, hvalue, hprovenance⟩ := h.reply reply rfl
  have hsame : value = ("REVALIDATED" : Str) := Option.some.inj (hvalue.symm.trans hcache)
  cases hprovenance with
  | revalidated _ _ hsuits hsurvives => exact .revalidated hmem hstatus hsuits hsurvives
  | hit | synthesized | filled => exact absurd hsame (by decide)

theorem Course.atomic {C : HeaderCodec} (h : Course s r ms outcome)
    (htruthful : Truthful s r log outcome) (hC : Encodable s C r log ms)
    (hfollows : Follows w (batches ms) w') : Atomic s C r ms outcome w w' := by
  have hkept : batches ms = [] → Kept w w' := fun hnil => by
    rw [hnil] at hfollows
    cases hfollows
    assumption
  cases h with
  | cached => exact atomic_of_kept (hkept rfl) nofun nofun
  | @converted values reply hreply =>
    have hsend := send_of_sendsWith hreply.sends (C.ascii [] rfl)
      (hC.page _ (storedPage_of_converted hreply htruthful))
    exact ⟨fun ⟨e, he⟩ => absurd (hsend.symm.trans he) nofun, nofun, nofun⟩
  | fetched h =>
    cases h with
    | unreachable before hbefore =>
      have hlast : lastAnswer (before ++ [.answered none]) = none := by
        rw [lastAnswer, answers_append, show answers [.answered none] = [none] from rfl,
          List.getLast?_concat]
        rfl
      refine atomic_of_kept (hkept ?_) ?_ ?_
      · rw [batches_append, hbefore]
        rfl
      · intro response h
        rw [hlast] at h
        cases h
      · intro response h
        rw [hlast] at h
        cases h
    | @settled before ms response _ hbefore h =>
      have hlast : lastAnswer (before ++ .answered (some response) :: ms) = some response :=
        lastAnswer_settled before h.answers_eq_nil
      have hbatches : batches (before ++ .answered (some response) :: ms) = batches ms := by
        rw [batches_append, hbefore]
        rfl
      have hmem : some response ∈ answers (before ++ .answered (some response) :: ms) :=
        mem_answers_settled before
      rw [hbatches] at hfollows hkept
      cases h with
      | failed hstatus =>
        refine atomic_of_kept (hkept rfl) ?_ fun _ _ _ => ⟨_, rfl⟩
        rintro _ h
        exact Option.some.inj (hlast.symm.trans h) ▸ hstatus
      | notFound hstatus =>
        refine ⟨fun _ hnot => absurd ⟨response, hlast, hstatus⟩ hnot, fun _ => hfollows, ?_⟩
        rintro _ h hok
        obtain rfl := Option.some.inj (hlast.symm.trans h)
        omega
      | @filled bodies reply hstatus hbodies hreply hmade =>
        have hsend := send_of_sendsWith hreply (hC.contentType response hmem hstatus)
          (hC.page _ (.filled hmem hstatus hmade))
        refine ⟨fun ⟨e, he⟩ => absurd (hsend.symm.trans he) nofun, ?_, ?_⟩
        · rintro ⟨_, h, hnotFound⟩
          obtain rfl := Option.some.inj (hlast.symm.trans h)
          omega
        · rintro _ h - -
          obtain rfl := Option.some.inj (hlast.symm.trans h)
          exact ⟨bodies, hbodies, hfollows⟩
      | @revalidated _ reply hstatus _ hreply hcache =>
        have hsend := send_of_sendsWith hreply (hC.name ⟨response, hmem, hstatus⟩)
          (hC.page _ (storedPage_of_revalidated hmem hstatus hcache htruthful))
        refine ⟨fun ⟨e, he⟩ => absurd (hsend.symm.trans he) nofun, ?_, ?_⟩
        · rintro ⟨_, h, hnotFound⟩
          obtain rfl := Option.some.inj (hlast.symm.trans h)
          omega
        · rintro _ h hok
          obtain rfl := Option.some.inj (hlast.symm.trans h)
          omega

/-- What a request saw in a run. -/
def sights (cs : CallLog Op Ret) : List Sight := cs.flatMap fun c => sight c.1 c.2

/-- **A fill is all or nothing**, in every run of a request in which what is sent can be
encoded. -/
theorem all_or_nothing (s : Site) (C : HeaderCodec) (pid : ℕ) (project : Str)
    (accept : Option Str) {B : Backend} {upstream : Upstream} {t : ℕ} {w w' : World}
    {cs : CallLog Op Ret} {outcome : Outcome}
    (hrun : (effects B upstream).Performs Drift t (simpleProject s pid project accept) w cs outcome
      w')
    (hC : Encodable s C (projectRequest s project accept) (sights cs) (marks cs)) :
    Atomic s C (projectRequest s project accept) (marks cs) outcome w w' :=
  (hrun.emits (emits_serveProject pid)).atomic
    (hrun.emits (ReplySources.emits_serveProject pid)) hC (follows_of_performs hrun)

/-! ## A page -/

open Freshness (pageSite one emptyPage)

/-- The upstream answers with a page of some content type. -/
def servePage (contentType : Str) (_ : ℕ) (_ : UpstreamRequest) : Option UpstreamResponse :=
  some { status := 200, contentType := some contentType, text := emptyPage }

abbrev pageEffects (contentType : Str) : Effects Op Ret World :=
  effects .memory fun version request response => response = servePage contentType version request

/-- The first request for the page. -/
def pageRun (contentType : Str) : Option (CallLog Op Ret × Outcome × World) :=
  Effects.perform (respond .memory (servePage contentType) {} 0) (simpleProject pageSite 0 one none)
    emptyWorld

/-- A request for an ordinary page. -/
theorem all_or_nothing_page : ∃ cs outcome w',
    (pageEffects ("text/html" : Str)).Performs Drift 0 (simpleProject pageSite 0 one none)
      emptyWorld cs outcome w' ∧ (batches (marks cs)).length = 1 ∧
      Atomic pageSite latin1 (projectRequest pageSite one none) (marks cs) outcome
        emptyWorld w' := by
  have hrun : (pageRun ("text/html" : Str)).any (fun (cs, _, _) =>
      (batches (marks cs)).length == 1 && (answers (marks cs)).all fun answer =>
        answer.all fun response => response.status == 200 &&
          latin1.encodes (response.contentType.getD [])) = true := by
    decide +kernel
  obtain ⟨⟨cs, outcome, w'⟩, hrun, hchecks⟩ := (Option.any_eq_true _ _).mp hrun
  obtain ⟨hlength, hanswers⟩ := Bool.and_eq_true_iff.mp hchecks
  have hperforms := performs_of_respond hrun
  have hanswer : ∀ response, some response ∈ answers (marks cs) →
      response.status = 200 ∧ latin1.encodes (response.contentType.getD []) = true := by
    intro response hmem
    simpa using List.all_eq_true.mp hanswers _ hmem
  refine ⟨cs, outcome, w', hperforms, beq_iff_eq.mp hlength,
    all_or_nothing pageSite latin1 0 one none hperforms
      ⟨?_, ?_, fun page _ => encodable_asciiOnly page⟩⟩
  · exact fun response hmem _ => (hanswer response hmem).2
  · rintro ⟨response, hmem, hstatus⟩
    have := (hanswer response hmem).1
    omega

/-- A content type with a character outside Latin-1: the page is stored, and the reply cannot be
sent. -/
theorem not_all_or_nothing : ∃ cs outcome w',
    (pageEffects ("text/html; charset=€" : Str)).Performs Drift 0
      (simpleProject pageSite 0 one none) emptyWorld cs outcome w' ∧
      ¬ Atomic pageSite latin1 (projectRequest pageSite one none) (marks cs) outcome
        emptyWorld w' := by
  have hrun : (pageRun ("text/html; charset=€" : Str)).any (fun (cs, outcome, w') =>
      !(outcome >>= send pageSite.U latin1).isOk && (lastAnswer (marks cs)).all (fun response =>
        response.status == 200) && (w'.get (projectKey one (.body false))).isSome) = true := by
    decide +kernel
  obtain ⟨⟨cs, outcome, w'⟩, hrun, hchecks⟩ := (Option.any_eq_true _ _).mp hrun
  obtain ⟨hchecks, hbody⟩ := Bool.and_eq_true_iff.mp hchecks
  obtain ⟨hrefused, hlast⟩ := Bool.and_eq_true_iff.mp hchecks
  refine ⟨cs, outcome, w', performs_of_respond hrun, fun h => ?_⟩
  have herror : ∃ e, (outcome >>= send pageSite.U latin1) = .error e := by
    cases hsend : outcome >>= send pageSite.U latin1 with
    | error e => exact ⟨e, rfl⟩
    | ok reply =>
      rw [hsend] at hrefused
      cases hrefused
  have hfound : ¬ UpstreamNotFound (marks cs) := by
    rintro ⟨response, hresponse, hstatus⟩
    rw [hresponse, Option.all_some, beq_iff_eq, hstatus] at hlast
    cases hlast
  obtain ⟨body, hbody⟩ := Option.isSome_iff_exists.mp hbody
  cases (h.failed herror hfound).get hbody

end ProxyCache.Theorems.AllOrNothing
