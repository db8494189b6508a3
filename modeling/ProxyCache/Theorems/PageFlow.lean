import ProxyCache.App.Service
import ProxyCache.Lib.Flow
import ProxyCache.Theorems.AdvertisedDocument
import ProxyCache.Theorems.HandOver
import ProxyCache.Theorems.KeySeparation

/-!
# What flows into the pages of a project

What is kept for a project is made in a few places: a page from a 200 of the upstream, alone or
with the other format, from a page of the other format, or from a page that metadata is advertised
in; a validator from a 200, and the marker of absence from a 404. Facts that these places keep are
true of everything that is kept for the project and served for it, by any number of processes with
their background jobs.

The first such facts are those of descent: everything comes from answers that the upstream gave to
GETs for the very project.
-/

namespace ProxyCache.Theorems.PageFlow

open ProxyCache.Lib ProxyCache.Python ProxyCache.App
open ProxyCache.Theorems.AdvertisedDocument (Probed probe_returns)
open ProxyCache.Theorems.HandOver (Covers candidates_valid)
open ProxyCache.Theorems.KeySeparation (indexKey_eq_projectKey)

/-! ## Facts -/

/-- What is to be true of the pages of each project, of its absence and of its validators. -/
structure Facts where
  page : Str → Bool → Str → Prop
  absent : Str → Prop
  etag : Str → Str → Prop
  lastmod : Str → Str → Prop

/-- What is to be true of a value that is kept for a project. -/
def Facts.At (K : Facts) (canonical : Str) : ProjectPart → Str → Prop
  | .body isJson, value | .stale isJson, value => K.page canonical isJson value
  | .notFound, _ => K.absent canonical
  | .etag, value => K.etag canonical value
  | .lastmod, value => K.lastmod canonical value
  | .metadataReady _, _ | .metadataDiscovered _, _ => True

section Statement

variable (s : Site) (log : List Record)

/-- The URL of a project in the upstream's index. -/
def projectUrl (canonical : Str) : Str :=
  rstripChar '/' s.settings.upstreamSimpleUrl ++ '/' :: canonical ++ ['/']

/-- The upstream gave this answer to a GET for the project. -/
def Gives (canonical : Str) (response : UpstreamResponse) : Prop :=
  ∃ t time version request, .exchange t time version request response ∈ log ∧
    request.url = projectUrl s canonical

/-- The places where values are made keep the facts. The pages of a project `index` are not told
from those of the root index, so there can be no fact about them. -/
structure Makes (K : Facts) : Prop where
  index : ∀ isJson body, K.page ("index" : Str) isJson body
  fill : ∀ {canonical response body}, Gives s log canonical response →
    response.status = 200 →
    rewriteSimpleBody s.U s.D s.settings response.text (isUpstreamJson response) = .ok body →
    K.page canonical (isUpstreamJson response) body
  synthesize : ∀ {canonical response jsonBody htmlBody}, Gives s log canonical response →
    response.status = 200 →
    synthesizeBodies s canonical (isUpstreamJson response) response.content response.text =
      .ok (jsonBody, htmlBody) →
    K.page canonical true jsonBody ∧ K.page canonical false htmlBody
  convert : ∀ {canonical toJson other body}, K.page canonical (!toJson) other →
    convertBody s canonical toJson other = .ok body → K.page canonical toJson body
  advertise : ∀ {canonical isJson body project files out}, K.page canonical isJson body →
    parseProjectBody s canonical body isJson = .ok project →
    List.Forall₂ Probed project.files files →
    advertiseMetadata s body isJson files = .ok out → K.page canonical isJson out
  absent : ∀ {canonical response}, Gives s log canonical response →
    response.status = 404 → K.absent canonical
  etag : ∀ {canonical response value}, Gives s log canonical response →
    response.status = 200 → response.etag = some value → K.etag canonical value
  lastmod : ∀ {canonical response value}, Gives s log canonical response →
    response.status = 200 → response.lastModified = some value → K.lastmod canonical value

/-- The GET is the one for the root index, or one for a project with validators of the project. -/
def Sends (K : Facts) (request : UpstreamRequest) : Prop :=
  request = indexRequest s ∨ ∃ canonical, request.url = projectUrl s canonical ∧
    (∀ value, request.ifNoneMatch = some value → K.etag canonical value) ∧
    ∀ value, request.ifModifiedSince = some value → K.lastmod canonical value

end Statement

variable {s : Site} {log : List Record} {K : Facts}

/-- If a value is kept for a project, the fact about it is true. -/
def Fine (K : Facts) (key value : Str) : Prop :=
  ∀ canonical part, key = projectKey canonical part → K.At canonical part value

/-- The values that are read are fine, and the answers of the upstream are in the log. -/
def Answers (log : List Record) (K : Facts) : (o : Op) → Ret o → Prop
  | .getMany keys, values =>
    List.Forall₂ (fun key value => ∀ v, value = some v → Fine K key v) keys values
  | .httpGet request, response =>
    ∀ answer, response = some answer → ∃ t time version,
      .exchange t time version request answer ∈ log
  | _, _ => True

/-- All that is written is fine, and a GET is one to be sent. -/
def Allowed (s : Site) (K : Facts) : Op → Prop
  | .httpGet request => Sends s K request
  | o => ∀ x ∈ o.writes, Fine K x.key x.value

/-- A reply with a page of the project. -/
def Served (K : Facts) (canonical : Str) (reply : Reply) : Prop :=
  ∃ isJson, reply.mediaType = mediaTypeOf isJson ∧ K.page canonical isJson reply.body

/-! ## Keys -/

section Keys

variable {canonical value : Str} {isJson : Bool} {part : ProjectPart}

theorem fine_of_at (h : K.At canonical part value) : Fine K (projectKey canonical part) value := by
  intro c part' hkey
  obtain ⟨rfl, rfl⟩ := projectKey_inj.mp hkey
  exact h

theorem Fine.at (h : Fine K (projectKey canonical part) value) : K.At canonical part value :=
  h canonical part rfl

theorem fine_metadataKey {key : Str} (h : IsMetadataKey key) : Fine K key value := by
  intro c part hkey
  exact absurd hkey (h.ne_projectKey c part)

theorem fine_indexKey (T : Makes s log K) : Fine K (indexKey isJson) value := by
  intro c part hkey
  obtain ⟨rfl, rfl⟩ := indexKey_eq_projectKey.mp hkey
  exact T.index isJson value

end Keys

/-! ## Calls -/

section Calls

variable {α β : Type} {p : Program α} {Q : β → Prop}

/-- As long as the facts are true of what is read, they are of what is written, sent and
returned. -/
abbrev Flows (s : Site) (log : List Record) (K : Facts) (p : Program α) (Q : α → Prop) : Prop :=
  p.Assures (Answers log K) (Allowed s K) Q

/-- A call that neither writes nor asks the upstream for a page. -/
def isGet : Op → Bool
  | .httpGet _ => true
  | _ => false

theorem allowed_of_writes {o : Op} (hget : isGet o = false)
    (ho : ∀ x ∈ o.writes, Fine K x.key x.value) : Allowed s K o := by
  cases o with
  | httpGet => cases hget
  | _ => exact ho

theorem Allowed.writes {o : Op} (h : Allowed s K o) : ∀ x ∈ o.writes, Fine K x.key x.value := by
  cases o with
  | httpGet => exact fun x hx => by cases hx
  | _ => exact h

theorem allowed_of_silent {o : Op} (hget : isGet o = false) (ho : o.writes = []) :
    Allowed s K o := by
  apply allowed_of_writes hget
  intro x hx
  rw [ho] at hx
  cases hx

theorem allowed_of_isRead {o : Op} (ho : o.isRead = true) : Allowed s K o := by
  cases o with
  | setexMany | setexManyIfUnchanged | httpGet => cases ho
  | _ => exact allowed_of_silent rfl rfl

theorem allowed_of_isProbe {o : Op} (ho : o.IsProbe) : Allowed s K o := by
  cases o with
  | setexMany values => exact fun x hx => fine_metadataKey (ho x hx)
  | setexManyIfUnchanged | httpGet => exact ho.elim
  | _ => exact allowed_of_silent rfl rfl

theorem flows_of_reads {P : Op → Prop} {Q : α → Prop} (hp : p.Calls fun o => o.isRead ∧ P o)
    (hreturns : p.Returns Q) : Flows s log K p Q :=
  Prog.assures_of_calls (hp.mono fun _ ho => allowed_of_isRead ho.1) hreturns

theorem flows_of_probes {Q : α → Prop} (hp : p.Calls Op.IsProbe) (hreturns : p.Returns Q) :
    Flows s log K p Q :=
  Prog.assures_of_calls (hp.mono fun _ ho => allowed_of_isProbe ho) hreturns

/-- One key is read. -/
theorem flows_cacheGet {key : Str} {f : Option Str → Program β}
    (hf : ∀ value, (∀ v, value = some v → Fine K key v) → Flows s log K (f value) Q) :
    Flows s log K (cacheGet key >>= f) Q := by
  refine ⟨allowed_of_isRead rfl, fun values hvalues => ?_⟩
  cases hvalues with
  | cons hvalue hrest =>
    cases hrest
    exact hf _ hvalue

/-- Two keys are read. -/
theorem flows_cacheGetTwo {key key' : Str} {f : Option Str × Option Str → Program β}
    (hf : ∀ value value', (∀ v, value = some v → Fine K key v) →
      (∀ v, value' = some v → Fine K key' v) → Flows s log K (f (value, value')) Q) :
    Flows s log K (cacheGetTwo key key' >>= f) Q := by
  refine ⟨allowed_of_isRead rfl, fun values hvalues => ?_⟩
  cases hvalues with
  | cons hvalue hrest =>
    cases hrest with
    | cons hvalue' hrest' =>
      cases hrest'
      exact hf _ _ hvalue hvalue'

theorem flows_withLock {pid : ℕ} {key : Str} {Q : α → Prop} (hp : Flows s log K p Q) :
    Flows s log K (withLock pid key p) Q := by
  refine ⟨allowed_of_silent rfl rfl, fun _ _ => ?_⟩
  exact hp.bind fun a ha => ⟨allowed_of_silent rfl rfl, fun _ _ => ha⟩

end Calls

/-! ## The project route -/

section Project

variable {r : ProjectRequest} {body other : Str} {isJson : Bool}

/-- What is tried ends with a page of the project, or says that it is absent, or neither. -/
structure ServesSome (K : Facts) (canonical : Str) (result : Except Failure (Option Reply)) :
    Prop where
  page : ∀ reply, result = .ok (some reply) → Served K canonical reply
  absent : ∀ detail headers, result = .error (.http 404 detail headers) → K.absent canonical

/-- What a request ends with. -/
abbrev Serves (K : Facts) (canonical : Str) (outcome : Outcome) : Prop :=
  ServesSome K canonical (outcome.map some)

theorem servesSome_none {canonical : Str} : ServesSome K canonical (.ok none) :=
  ⟨fun reply h => (by cases h), fun detail headers h => by cases h⟩

theorem servesSome_page {canonical : Str} {reply : Reply}
    (hmedia : reply.mediaType = mediaTypeOf isJson) (h : K.page canonical isJson reply.body) :
    ServesSome K canonical (.ok (some reply)) := by
  refine ⟨fun reply' hreply' => ?_, fun detail headers h => by cases h⟩
  obtain rfl := Option.some.inj (Except.ok.inj hreply')
  exact ⟨isJson, hmedia, h⟩

theorem servesSome_absent {canonical : Str} {failure : Failure} (h : K.absent canonical) :
    ServesSome K canonical (.error failure) :=
  ⟨fun reply h => (by cases h), fun _ _ _ => h⟩

/-- Any other failure says nothing about the project. -/
theorem servesSome_error {canonical : Str} {failure : Failure}
    (h : ∀ detail headers, failure ≠ .http 404 detail headers) :
    ServesSome K canonical (.error failure) :=
  ⟨fun reply h => (by cases h), fun detail headers heq => absurd (Except.error.inj heq) (h _ _)⟩

theorem servesSome_raised {canonical : Str} {e : Raised} :
    ServesSome K canonical (.error (.raised e)) :=
  servesSome_error fun _ _ h => by cases h

theorem serves_upstreamError {canonical : Str} : Serves K canonical (.error upstreamError) :=
  servesSome_error fun _ _ h => by cases h

/-- A cached response carries the page that it is made of. -/
theorem flows_cachedResponse :
    Flows s log K (cachedResponse s r.canonical body isJson) fun reply =>
      reply.body = body ∧ reply.mediaType = mediaTypeOf isJson := by
  refine flows_of_reads (cachedResponse_calls s _ _ _) ?_
  unfold cachedResponse
  split
  · refine Prog.Returns.bind_of_forall _ fun ttl => ?_
    cases ttl with
    | none => exact Prog.Returns.bind_of_forall _ fun _ => ⟨rfl, rfl⟩
    | some ttl => exact ⟨rfl, rfl⟩
  · exact ⟨rfl, rfl⟩

theorem flows_hit (h : K.page r.canonical isJson body) :
    Flows s log K (cachedResponse s r.canonical body isJson >>= fun reply =>
      (.ret (.ok (some reply)) : Program (Except Failure (Option Reply))))
      (ServesSome K r.canonical) := by
  refine flows_cachedResponse.bind fun reply hreply => ?_
  exact servesSome_page hreply.2 (by rwa [hreply.1])

/-- A converted page is stored under the keys of its format. -/
theorem flows_storeConversion (h : K.page r.canonical r.wantsJson body) :
    Flows s log K (storeConversion s r other body) (ServesSome K r.canonical) := by
  unfold storeConversion
  simp only [Prog.op_bind]
  refine ⟨allowed_of_isRead rfl, fun otherTtl _ => ?_⟩
  cases otherTtl with
  | none => exact servesSome_none
  | some otherTtl =>
    refine ⟨allowed_of_isRead rfl, fun staleTtl _ => ⟨fun x hx => ?_, fun committed _ => ?_⟩⟩
    · rcases mem_conversionValues.mp hx with rfl | ⟨n, -, rfl⟩
      · exact fine_of_at h
      · exact fine_of_at h
    cases committed with
    | false => exact servesSome_none
    | true =>
      refine Prog.assures_calls_bind ((scheduleMetadataEnrichment_calls s _ r.canonical _ _).mono
        fun _ ho => allowed_of_isRead ho.1) fun _ => servesSome_page rfl h

theorem flows_tryServeFromCache (T : Makes s log K) :
    Flows s log K (tryServeFromCache s r) (ServesSome K r.canonical) := by
  unfold tryServeFromCache
  refine flows_cacheGetTwo fun notFound cached hnotFound hcached => ?_
  dsimp only
  split
  · next hsome =>
    obtain ⟨marker, hmarker⟩ := Option.isSome_iff_exists.mp hsome
    exact servesSome_absent (hnotFound marker hmarker).at
  split
  · next body hbody => exact flows_hit (hcached body (Option.filter_eq_some_iff.mp hbody).1).at
  refine flows_cacheGet fun other hother => ?_
  split
  · next body hbody =>
    have hpage : K.page r.canonical (!r.wantsJson) body :=
      (hother body (Option.filter_eq_some_iff.mp hbody).1).at
    unfold serveOther
    split
    · next hpass =>
      -- HTML is passed on where JSON is wanted
      have hjson : r.wantsJson = true := (Bool.and_eq_true_iff.mp hpass).1
      rw [hjson] at hpage
      exact flows_hit hpage
    simp only [Prog.op_bind]
    refine ⟨allowed_of_silent rfl rfl, fun _ _ => ?_⟩
    split
    · next hconvert => exact flows_storeConversion (T.convert hpage hconvert)
    · next e _ =>
      show ServesSome K r.canonical (if isCaught e then .ok none else .error (.raised e))
      split
      · exact servesSome_none
      · exact servesSome_raised
  · exact servesSome_none

/-! ### Answers of the upstream -/

/-- The validators are those of the project. -/
structure Validators (K : Facts) (canonical : Str) (etag lastMod : Option Str) : Prop where
  etag : ∀ value, etag = some value → K.etag canonical value
  lastmod : ∀ value, lastMod = some value → K.lastmod canonical value

theorem validators_none {canonical : Str} : Validators K canonical none none :=
  ⟨fun value h => (by cases h), fun value h => by cases h⟩

theorem fine_validatorValues {etag lastMod : Option Str}
    (h : Validators K r.canonical etag lastMod) :
    ∀ x ∈ validatorValues s r etag lastMod, Fine K x.key x.value := by
  intro x hx
  rcases mem_validatorValues.mp hx with ⟨v, ⟨hsome, -⟩, rfl⟩ | ⟨v, ⟨hsome, -⟩, rfl⟩
  · exact fine_of_at (h.etag v hsome)
  · exact fine_of_at (h.lastmod v hsome)

theorem allowed_upstreamRequest {etag lastMod : Option Str}
    (h : Validators K r.canonical etag lastMod) :
    Allowed s K (.httpGet (upstreamRequest s r etag lastMod)) := by
  refine .inr ⟨r.canonical, rfl, fun value hvalue => ?_, fun value hvalue => ?_⟩
  · exact h.etag value (Option.filter_eq_some_iff.mp hvalue).1
  · exact h.lastmod value (Option.filter_eq_some_iff.mp hvalue).1

theorem fine_bodyValues {canonical : Str} {ttl : ℤ} (h : K.page canonical isJson body) :
    ∀ x ∈ bodyValues s canonical isJson ttl body, Fine K x.key x.value := by
  intro x hx
  rcases mem_bodyValues.mp hx with rfl | rfl
  · exact fine_of_at h
  · exact fine_of_at h

theorem flows_storeFill (T : Makes s log K) {response : UpstreamResponse}
    (hgives : Gives s log r.canonical response) (hstatus : response.status = 200) :
    Flows s log K (storeFill s r response) (Serves K r.canonical) := by
  have hschedule : ∀ body isJson, (scheduleMetadataEnrichment s r.canonical body isJson).Calls
      (Allowed s K) := fun body isJson =>
    (scheduleMetadataEnrichment_calls s _ r.canonical _ _).mono fun _ ho => allowed_of_isRead ho.1
  have hvalidators : Validators K r.canonical response.etag response.lastModified :=
    ⟨fun _ => T.etag hgives hstatus, fun _ => T.lastmod hgives hstatus⟩
  unfold storeFill
  dsimp only
  split
  · split
    · exact servesSome_raised
    · next body hrewritten =>
      have hpage := T.fill hgives hstatus hrewritten
      unfold storePassthrough
      dsimp only
      rw [Prog.op_bind]
      refine ⟨fun x hx => ?_, fun _ _ => ?_⟩
      · rcases List.mem_append.mp hx with hx | hx
        · exact fine_validatorValues hvalidators x hx
        · exact fine_bodyValues hpage x hx
      · exact Prog.assures_calls_bind (hschedule _ _) fun _ => servesSome_page rfl hpage
  · split
    · exact servesSome_raised
    · next jsonBody htmlBody hsynthesized =>
      obtain ⟨hjson, hhtml⟩ := T.synthesize hgives hstatus hsynthesized
      unfold storeSynthesis
      dsimp only
      rw [Prog.op_bind]
      refine ⟨fun x hx => ?_, fun _ _ => Prog.assures_calls_bind (hschedule _ _) fun _ => ?_⟩
      · rcases List.mem_append.mp hx with hx | hx
        · exact fine_validatorValues hvalidators x hx
        -- both formats are stored, in one order or the other
        split at hx
        · rcases List.mem_append.mp hx with hx | hx
          · exact fine_bodyValues hjson x hx
          · exact fine_bodyValues hhtml x hx
        · rcases List.mem_append.mp hx with hx | hx
          · exact fine_bodyValues hhtml x hx
          · exact fine_bodyValues hjson x hx
      · cases hupstream : isUpstreamJson response with
        | true => exact servesSome_page rfl hhtml
        | false => exact servesSome_page rfl hjson

theorem flows_answer (T : Makes s log K) {response : UpstreamResponse}
    {t : ℕ} {time : ℚ} {version : ℕ} {etag lastMod : Option Str}
    (hanswer : .exchange t time version (upstreamRequest s r etag lastMod) response ∈ log) :
    Flows s log K (answer s r response) (Serves K r.canonical) := by
  have hgives : Gives s log r.canonical response := ⟨t, time, version, _, hanswer, rfl⟩
  unfold answer
  split
  · next hstatus =>
    have habsent := T.absent hgives hstatus
    refine ⟨fun x hx => ?_, fun _ _ => servesSome_absent habsent⟩
    rw [List.mem_singleton.mp hx]
    exact fine_of_at habsent
  next hfound =>
  split
  · refine servesSome_error fun detail headers h => hfound ?_
    exact (Failure.http.inj h).1
  · next hstatus => exact flows_storeFill T hgives (by simpa using hstatus)

theorem flows_refetch (T : Makes s log K) :
    Flows s log K (refetch s r) (Serves K r.canonical) := by
  unfold refetch
  rw [Prog.op_bind]
  refine ⟨allowed_upstreamRequest validators_none, fun response hresponse => ?_⟩
  cases response with
  | none => exact serves_upstreamError
  | some response =>
    obtain ⟨_, _, _, hanswer⟩ := hresponse response rfl
    dsimp only
    split
    · exact servesSome_error fun _ _ h => by cases h
    · exact flows_answer T hanswer

/-- A 304 makes a stale page current again. -/
theorem flows_refresh {etag lastMod otherStale : Option Str} {response : UpstreamResponse}
    (hvalidators : Validators K r.canonical etag lastMod) (hbody : K.page r.canonical isJson body)
    (hother : ∀ other, otherStale = some other → K.page r.canonical (!r.wantsJson) other) :
    Flows s log K (refresh s r etag lastMod response isJson body otherStale)
      (Serves K r.canonical) := by
  have hreply : Flows s log K (cachedResponse s r.canonical body isJson >>= fun reply =>
      (.ret (.ok { reply with
        headers := dictSet reply.headers ("X-Cache" : Str) ("REVALIDATED" : Str) }) :
        Program Outcome)) (Serves K r.canonical) := by
    refine flows_cachedResponse.bind fun reply hreply => ?_
    exact servesSome_page hreply.2 (by show K.page r.canonical isJson reply.body; rwa [hreply.1])
  unfold refresh
  dsimp only
  rw [Prog.op_bind]
  refine ⟨fun x hx => ?_, fun _ _ => ?_⟩
  · rcases mem_refreshedValues.mp hx with rfl | hx | ⟨-, other, ⟨hsome, -⟩, rfl⟩
    · exact fine_of_at hbody
    · exact fine_validatorValues hvalidators x hx
    · exact fine_of_at (hother other hsome)
  split
  · -- the marker is no page, so there is nothing to show of it
    unfold refreshMetadataResponseReadiness
    dsimp only
    rw [Prog.op_bind]
    refine ⟨fun x hx => ?_, fun _ _ => hreply⟩
    rw [List.mem_singleton.mp hx]
    exact fine_of_at trivial
  · exact hreply

theorem flows_notModified (T : Makes s log K) {etag lastMod : Option Str}
    {response : UpstreamResponse} (hvalidators : Validators K r.canonical etag lastMod) :
    Flows s log K (notModified s r etag lastMod response) (Serves K r.canonical) := by
  unfold notModified
  refine flows_cacheGetTwo fun staleBody otherStale hstale hotherStale => ?_
  have hother : ∀ other, otherStale = some other → K.page r.canonical (!r.wantsJson) other :=
    fun other hsome => (hotherStale other hsome).at
  cases staleBody with
  | some body => exact flows_refresh hvalidators (hstale body rfl).at hother
  | none =>
    -- the wanted format is gone, so the other one is converted if it is still kept
    cases otherStale with
    | none => exact flows_refetch T
    | some otherStale =>
      have hpage := hother otherStale rfl
      show Flows s log K (synthesizeStale s r etag lastMod response otherStale) _
      unfold synthesizeStale
      split
      · next hpass =>
        have hjson : r.wantsJson = true := (Bool.and_eq_true_iff.mp hpass).1
        refine flows_refresh hvalidators ?_ hother
        rwa [hjson] at hpage
      split
      · next e _ =>
        split
        · exact flows_refetch T
        · exact servesSome_raised
      · next body hconvert =>
        refine ⟨fun x hx => ?_, fun _ _ => flows_refresh hvalidators (T.convert hpage hconvert)
          hother⟩
        rw [List.mem_singleton.mp hx]
        exact fine_of_at hpage

theorem flows_fetchUpstream (T : Makes s log K) :
    Flows s log K (fetchUpstream s r) (Serves K r.canonical) := by
  have hget : ∀ {etag lastMod : Option Str}, Validators K r.canonical etag lastMod →
      Flows s log K (conditionalGet s r etag lastMod) (Serves K r.canonical) := by
    intro etag lastMod hvalidators
    unfold conditionalGet
    rw [Prog.op_bind]
    refine ⟨allowed_upstreamRequest hvalidators, fun response hresponse => ?_⟩
    cases response with
    | none => exact serves_upstreamError
    | some response =>
      obtain ⟨_, _, _, hanswer⟩ := hresponse response rfl
      dsimp only
      split
      · exact flows_notModified T hvalidators
      · exact flows_answer T hanswer
  unfold fetchUpstream
  rw [Prog.op_bind]
  refine ⟨allowed_of_isRead rfl, fun stale _ => ?_⟩
  dsimp only
  split
  · exact flows_cacheGetTwo fun _ _ hetag hlastMod =>
      hget ⟨fun v hv => (hetag v hv).at, fun v hv => (hlastMod v hv).at⟩
  · exact hget validators_none

/-- **A request** for a project. -/
theorem flows_serveProject (T : Makes s log K) (pid : ℕ) :
    Flows s log K (serveProject s pid r) (Serves K r.canonical) := by
  unfold serveProject
  refine (flows_tryServeFromCache T).bind fun result hresult => ?_
  split
  · exact hresult
  · exact hresult
  -- the cache is tried once more by whoever gets the lock
  refine flows_withLock ?_
  unfold fill
  refine (flows_tryServeFromCache T).bind fun result hresult => ?_
  split
  · exact hresult
  · exact hresult
  · exact flows_fetchUpstream T

end Project

/-! ## Background jobs -/

section Jobs

variable {pid : ℕ} {canonical body : Str} {isJson : Bool} {project : Project}
  {files newFiles : List File}

/-- Replaced or not, a file of the list is what a probe made of it. -/
theorem forall₂_of_covers {done : List ℕ} (h : Covers Probed files done newFiles) :
    List.Forall₂ Probed files newFiles := by
  rw [List.forall₂_iff_get]
  refine ⟨h.length.symm, fun i hi hi' => ?_⟩
  have hnew : newFiles[i]? = some newFiles[i] := List.getElem?_eq_getElem hi'
  have hold : files[i]? = some files[i] := List.getElem?_eq_getElem hi
  by_cases hdone : i ∈ done
  · obtain ⟨f, hf, hprobed⟩ := h.replaced i hdone _ hnew
    obtain rfl := Option.some.inj (hold.symm.trans hf)
    exact hprobed
  · -- a file that is not in a batch stays as it was
    have hsame := h.others i hdone
    rw [hnew, hold] at hsame
    have heq : newFiles[i] = files[i] := Option.some.inj hsame
    show Probed files[i] newFiles[i]
    rw [heq]
    exact .unresolved _

theorem probeAll_returns (allowExtraction checkNative : Bool) :
    (probeAll s pid allowExtraction checkNative files).Returns fun result =>
      ∀ probed, result = .ok probed → List.Forall₂ Probed files probed := by
  induction files with
  | nil =>
    intro probed hprobed
    obtain rfl := Except.ok.inj hprobed
    exact .nil
  | cons f files ih =>
    refine (probe_returns pid allowExtraction checkNative).bind fun first hfirst => ?_
    refine Prog.Returns.bind ih fun others hothers => ?_
    intro probed hprobed
    cases first with
    | error e => cases hprobed
    | ok f' =>
      cases others with
      | error e => cases hprobed
      | ok others =>
        obtain rfl := Except.ok.inj hprobed
        exact .cons (hfirst f' rfl) (hothers others rfl)

/-- The batches of an extraction. -/
theorem extractBatches_returns {batches : List (List ℕ)} {done : List ℕ}
    (hvalid : ∀ i ∈ batches.flatten, i < files.length) (h : Covers Probed files done newFiles) :
    (extractBatches s pid files batches newFiles).Returns fun result =>
      ∀ all, result = .ok all → List.Forall₂ Probed files all := by
  induction batches generalizing done newFiles with
  | nil =>
    intro all hall
    obtain rfl := Except.ok.inj hall
    exact forall₂_of_covers h
  | cons batch batches ih =>
    rw [List.flatten_cons] at hvalid
    have hbatch : ∀ i ∈ batch, i < files.length :=
      fun i hi => hvalid i (List.mem_append_left _ hi)
    have hrest : ∀ i ∈ batches.flatten, i < files.length :=
      fun i hi => hvalid i (List.mem_append_right _ hi)
    unfold extractBatches
    rw [Prog.op_bind]
    intro _
    refine Prog.Returns.bind (probeAll_returns true false) fun probed hprobed => ?_
    cases probed with
    | error e =>
      intro all hall
      cases hall
    | ok probed => exact ih hrest (h.replace hbatch (hprobed probed rfl))

theorem writes_commitBatch {changed ready : Bool} {part : ProjectPart} {n m : ℤ} {completed : Str}
    (hpart : part = .body isJson ∨ part = .stale isJson)
    (h : changed = true → K.page canonical isJson completed) :
    ∀ x ∈ commitBatch s canonical isJson changed ready part n m completed,
      Fine K x.key x.value := by
  intro x hx
  rcases mem_commitBatch.mp hx with ⟨hchanged, rfl | ⟨-, rfl⟩⟩ | rfl | ⟨-, rfl⟩
  · rcases hpart with rfl | rfl
    · exact fine_of_at (h hchanged)
    · exact fine_of_at (h hchanged)
  · exact fine_of_at (h hchanged)
  · exact fine_of_at trivial
  · exact fine_of_at trivial

/-- A commit writes only if it finds the page that it was computed from. -/
theorem flows_commitLocked {changed ready : Bool} {completed : Str}
    (h : changed = true → K.page canonical isJson body → K.page canonical isJson completed) :
    Flows s log K (commitLocked s canonical body isJson completed changed ready)
      fun _ => True := by
  have hbound : ∀ part expected, (part = .body isJson ∨ part = .stale isJson) →
      K.page canonical isJson body → Flows s log K
        (commitBound s canonical isJson completed changed ready part expected) fun _ => True := by
    intro part expected hpart hbody
    unfold commitBound
    rw [Prog.op_bind]
    refine ⟨allowed_of_isRead rfl, fun ttl _ => ?_⟩
    cases ttl with
    | none => trivial
    | some n =>
      dsimp only
      split
      · trivial
      · exact ⟨writes_commitBatch hpart fun hchanged => h hchanged hbody, fun _ _ => trivial⟩
  unfold commitLocked
  -- the page has to be there still, so the fact about it is known
  refine flows_cacheGetTwo fun current stale hcurrent hstale => ?_
  dsimp only
  split
  · next hsame => exact hbound _ _ (.inl rfl) (hcurrent body hsame).at
  split
  · next hsame => exact hbound _ _ (.inr rfl) (hstale body hsame.2).at
  · trivial

theorem flows_commitProjectEnrichment (T : Makes s log K)
    (hproject : parseProjectBody s canonical body isJson = .ok project)
    (hfiles : List.Forall₂ Probed project.files newFiles) (changed ready : Bool) :
    Flows s log K
      (commitProjectEnrichment s pid canonical body isJson newFiles changed ready)
      fun _ => True := by
  unfold commitProjectEnrichment
  split
  · rw [Prog.op_bind]
    refine ⟨allowed_of_silent rfl rfl, fun _ _ => ?_⟩
    split
    · trivial
    · next completed hadvertised =>
      exact flows_withLock (flows_commitLocked fun _ hbody =>
        T.advertise hbody hproject hfiles hadvertised)
  · exact flows_withLock (flows_commitLocked fun _ hbody => hbody)

theorem flows_discover (T : Makes s log K)
    (hproject : parseProjectBody s canonical body isJson = .ok project) {candidates : List ℕ}
    (hcandidates : extractionCandidateIndexes s project.files = .ok candidates) :
    Flows s log K (discover s pid canonical body isJson project candidates)
      fun _ => True := by
  unfold discover
  refine (flows_of_probes (probeAll_probe s pid _ _ _) (probeAll_returns _ _)).bind
    fun probed hprobed => ?_
  split
  · trivial
  next probed =>
  have hcovers := (Covers.refl Probed project.files).replace (candidates_valid hcandidates)
    (hprobed probed rfl)
  dsimp only
  split
  · trivial
  · refine (flows_commitProjectEnrichment T hproject (forall₂_of_covers hcovers) _ _).bind
      fun committed _ => ?_
    split
    · trivial
    · trivial
    · split
      · exact ⟨allowed_of_silent rfl rfl, fun _ _ => trivial⟩
      · trivial

/-- **Discovery**, of any body that it may be started with. -/
theorem flows_enrich (T : Makes s log K) :
    Flows s log K (enrich s pid canonical body isJson) fun _ => True := by
  unfold enrich
  rw [Prog.op_bind]
  refine ⟨allowed_of_silent rfl rfl, fun _ _ => ?_⟩
  split
  · trivial
  next project hproject =>
  split
  · trivial
  next candidates hcandidates =>
  refine flows_cacheGet fun discovered _ => ?_
  split
  · split
    · trivial
    · exact ⟨allowed_of_silent rfl rfl, fun _ _ => trivial⟩
    · exact (flows_commitProjectEnrichment T hproject
        (forall₂_of_covers (Covers.refl Probed project.files)) _ _).bind fun _ _ => trivial
  · exact flows_discover T hproject (discoveryCandidates_eq_ok.mp hcandidates).1

/-- **Extraction.** -/
theorem flows_extractProjectAfterIdle (T : Makes s log K) {digest : Str} :
    Flows s log K (extractProjectAfterIdle s pid canonical isJson digest)
      fun _ => True := by
  have hbody : ∀ body, Flows s log K (extractBody s pid canonical body isJson)
      fun _ => True := by
    intro body
    unfold extractBody
    rw [Prog.op_bind]
    refine ⟨allowed_of_silent rfl rfl, fun _ _ => ?_⟩
    split
    · trivial
    next project hproject =>
    split
    · trivial
    next candidates hcandidates =>
    have hvalid := candidates_valid hcandidates
    refine (flows_of_probes (extractBatches_probe s pid _ _ _) (extractBatches_returns
      (fun i hi => hvalid i ?_) (Covers.refl Probed project.files))).bind fun result hresult => ?_
    · rwa [flatten_pieces (by omega) le_rfl] at hi
    split
    · trivial
    · next newFiles =>
      exact (flows_commitProjectEnrichment T hproject (hresult newFiles rfl) _ _).bind
        fun _ _ => trivial
  unfold extractProjectAfterIdle
  rw [Prog.op_bind]
  refine ⟨allowed_of_silent rfl rfl, fun _ _ => flows_cacheGetTwo fun current stale _ _ => ?_⟩
  dsimp only
  split
  · exact hbody _
  · exact hbody _
  · trivial

end Jobs

/-! ## The service -/

section Service

/-- The root index is stored under keys of its own. -/
theorem flows_simpleIndex (T : Makes s log K)
    {render : Bool → UpstreamResponse → Except Raised Str} {accept : Option Str} :
    Flows s log K (simpleIndex s render accept) fun _ => True := by
  unfold simpleIndex
  refine flows_cacheGet fun cached _ => ?_
  split
  · trivial
  rw [Prog.op_bind]
  refine ⟨.inl rfl, fun response _ => ?_⟩
  cases response with
  | none => trivial
  | some response =>
    dsimp only
    split
    · trivial
    unfold storeIndex
    split
    · trivial
    · refine ⟨fun x hx => ?_, fun _ _ => trivial⟩
      rw [List.mem_singleton.mp hx]
      exact fine_indexKey T

/-- What a task ends with: a request for a project, with a page of it. -/
def Ends (s : Site) (K : Facts) : ServiceTask → TaskResult → Prop
  | .project name _, result => ServesSome K (s.packaging.canonicalizeName name) result
  | _, _ => True

theorem flows_task (T : Makes s log K) (e : ℕ × ServiceTask) :
    Flows s log K (e.2.prog s e.1) (Ends s K e.2) := by
  obtain ⟨pid, task⟩ := e
  cases task with
  | project name accept =>
    exact (flows_serveProject T pid).bind fun outcome houtcome => houtcome
  | index render accept => exact (flows_simpleIndex T).bind fun _ _ => trivial
  | metadata host path query =>
    refine Prog.assures_calls_bind (wheelMetadata_calls_of (fun o ho => allowed_of_isRead ho)
      (fun _ => ⟨allowed_of_silent rfl rfl, allowed_of_silent rfl rfl⟩) ?_) fun _ => trivial
    rintro o ⟨key, value, hkey, rfl | rfl⟩ x hx
    · rw [List.mem_singleton.mp hx]
      exact fine_metadataKey hkey
    · rw [List.mem_singleton.mp hx]
      exact fine_metadataKey hkey
  | background job =>
    refine Prog.Assures.bind (M := fun _ => True) ?_ fun _ _ => trivial
    cases job with
    | enrich canonical body isJson => exact flows_enrich T
    | extract canonical isJson digest => exact flows_extractProjectAfterIdle T

/-- Everything that is live is fine. -/
def Keeps (K : Facts) (w : World) : Prop := ∀ key value, w.get key = some value → Fine K key value

theorem answers_of_exec {B : Backend} {upstream : Upstream} {t : ℕ} {o : Op} {w w' : World}
    {r : Ret o} (hkeeps : Keeps K w) (hallowed : Allowed s K o)
    (hexec : exec B upstream t o w r w') (hlog : ∀ x ∈ w'.log, x ∈ log) :
    Answers log K o r ∧ Keeps K w' := by
  refine ⟨?_, fun key value hget => ?_⟩
  · cases o with
    | getMany keys =>
      obtain ⟨rfl, -⟩ := hexec
      show List.Forall₂ _ keys (keys.map w.get)
      rw [List.forall₂_map_right_iff, List.forall₂_same]
      exact fun key _ value hvalue => hkeeps key value hvalue
    | httpGet request =>
      rintro answer rfl
      obtain ⟨-, rfl⟩ := hexec
      exact ⟨t, w.now, w.version, hlog _ List.mem_cons_self⟩
    | _ => trivial
  · rcases get_of_exec hexec hget with hbefore | ⟨x, hx, rfl, rfl⟩
    · exact hkeeps key value hbefore
    · exact hallowed.writes x hx

/-- Nothing is taken out of the log. -/
theorem log_of_step {B : Backend} {upstream : Upstream}
    {c c' : Config Op Ret World (ℕ × ServiceTask) TaskResult}
    {ev : Event Op Ret (ℕ × ServiceTask)} (h : (deployment s B upstream).Step c ev c') :
    ∀ x ∈ c.world.log, x ∈ c'.world.log := by
  cases h with
  | start => exact fun _ => id
  | env _ hdrift => exact fun x hx => (Drift.log hdrift).symm ▸ hx
  | @call t e o k r w _ _ hexec =>
    intro x hx
    cases o with
    | getMany | existsAny | ttl | ttlIfValues => exact hexec.2 ▸ hx
    | httpHead | extractWheelMetadata | suspend | unfinished | schedule | release =>
      exact (show w = _ from hexec) ▸ hx
    | acquire => exact hexec.2 ▸ hx
    | elapse =>
      obtain ⟨now, -, rfl⟩ := hexec
      exact hx
    | setexMany =>
      rw [show w = _ from hexec]
      exact List.mem_cons_of_mem _ hx
    | setexManyIfUnchanged =>
      rcases @exec_setexManyIfUnchanged B upstream t _ _ _ _ _ hexec with ⟨-, -, rfl⟩ | ⟨-, rfl⟩
      · exact List.mem_cons_of_mem _ hx
      · exact hx
    | httpGet =>
      obtain ⟨-, rfl⟩ := hexec
      cases r with
      | none => exact hx
      | some response => exact List.mem_cons_of_mem _ hx

/-- The facts are true of what is kept, of what is served and of what is asked for. -/
structure Upholds (s : Site) (K : Facts)
    (c : Config Op Ret World (ℕ × ServiceTask) TaskResult) : Prop where
  kept : ∀ canonical part value, c.world.get (projectKey canonical part) = some value →
    K.At canonical part value
  served : ∀ t pid name accept result, c.task t = some ((pid, .project name accept), .ret result) →
    ServesSome K (s.packaging.canonicalizeName name) result
  sent : ∀ t e request k, c.task t = some (e, .call (.httpGet request) k) → Sends s K request

/-- **Facts are upheld** that are kept for the answers in the log, whatever the processes and the
jobs of a service do to each other. -/
theorem upholds_of_reachable {B : Backend} {upstream : Upstream}
    {c : Config Op Ret World (ℕ × ServiceTask) TaskResult} (T : Makes s c.world.log K)
    (h : (deployment s B upstream).Reachable c) : Upholds s K c := by
  -- an answer that was ever given is in the log at the end
  have hwithin := h.within_of_backward (I := fun w => ∀ x ∈ w.log, x ∈ c.world.log)
    (fun _ _ _ hstep hlog x hx => hlog x (log_of_step hstep x hx)) fun _ => id
  have hgood := System.Reachable.good (S := (deployment s B upstream).within _ _) (I := Keeps K)
    (P := Allowed s K) (Q := fun e => Ends s K e.2) hwithin
    (fun w hw key value hget => ?_) (fun w w' hw hdrift key value hget => ?_)
    (fun t o w r w' hw hallowed hexec => answers_of_exec hw hallowed hexec.1 hexec.2.2)
    (flows_task T)
  · refine ⟨fun canonical part value hget => (hgood.1 _ value hget).at,
      fun t pid name accept result htask => hgood.returned htask, fun t e request k htask => ?_⟩
    exact (hgood.2 t e _ htask).1
  · rw [World.get, Store.get, hw.1 key] at hget
    cases hget
  · exact hw key value (Drift.get hdrift.1 hget)

end Service

/-! ## Descent -/

section Descent

variable (s) (log)

/-- A page that was made, in some steps, from a 200 in the log that answers a GET for the
project. -/
inductive Descends (canonical : Str) : Bool → Str → Prop
  | fetched {response : UpstreamResponse} {body : Str} : Gives s log canonical response →
      response.status = 200 →
      rewriteSimpleBody s.U s.D s.settings response.text (isUpstreamJson response) = .ok body →
      Descends canonical (isUpstreamJson response) body
  | synthesized {response : UpstreamResponse} {jsonBody htmlBody : Str} (isJson : Bool) :
      Gives s log canonical response → response.status = 200 →
      synthesizeBodies s canonical (isUpstreamJson response) response.content response.text =
        .ok (jsonBody, htmlBody) →
      Descends canonical isJson (if isJson then jsonBody else htmlBody)
  | converted {toJson : Bool} {other body : Str} : Descends canonical (!toJson) other →
      convertBody s canonical toJson other = .ok body → Descends canonical toJson body
  | advertised {isJson : Bool} {body out : Str} {project : Project} {files : List File} :
      Descends canonical isJson body → parseProjectBody s canonical body isJson = .ok project →
      List.Forall₂ Probed project.files files →
      advertiseMetadata s body isJson files = .ok out → Descends canonical isJson out

/-- Everything comes from answers to GETs for the project. -/
def descent : Facts where
  page canonical isJson body := canonical ≠ ("index" : Str) →
    Descends s log canonical isJson body
  absent canonical := ∃ response, Gives s log canonical response ∧ response.status = 404
  etag canonical value := ∃ response, Gives s log canonical response ∧
    response.status = 200 ∧ response.etag = some value
  lastmod canonical value := ∃ response, Gives s log canonical response ∧
    response.status = 200 ∧ response.lastModified = some value

variable {s} {log}

theorem makes_descent : Makes s log (descent s log) where
  index _ _ h := absurd rfl h
  fill hgives hstatus hrewritten _ := .fetched hgives hstatus hrewritten
  synthesize hgives hstatus hsynthesized :=
    ⟨fun _ => .synthesized true hgives hstatus hsynthesized,
      fun _ => .synthesized false hgives hstatus hsynthesized⟩
  convert hother hconvert hindex := .converted (hother hindex) hconvert
  advertise hbody hproject hfiles hadvertised hindex :=
    .advertised (hbody hindex) hproject hfiles hadvertised
  absent hgives hstatus := ⟨_, hgives, hstatus⟩
  etag hgives hstatus hetag := ⟨_, hgives, hstatus, hetag⟩
  lastmod hgives hstatus hlastmod := ⟨_, hgives, hstatus, hlastmod⟩

/-- **Nothing comes from nowhere.** In every configuration that a service can reach, in any number
of processes and over either backend, the pages that are kept for a project or served for it
descend from 200s, its markers of absence and its 404s from 404s, and the validators that are kept
or sent from 200s, all of them answers that the upstream has given to GETs for this very project. -/
theorem everything_descends {B : Backend} {upstream : Upstream}
    {c : Config Op Ret World (ℕ × ServiceTask) TaskResult}
    (h : (deployment s B upstream).Reachable c) : Upholds s (descent s c.world.log) c :=
  upholds_of_reachable makes_descent h

theorem everything_descends_page : ∃ c, Readiness.pageService.Reachable c ∧
    c.world.get (projectKey Readiness.one (.body true)) = some Readiness.page ∧
    Descends Readiness.pageSite c.world.log Readiness.one true Readiness.page := by
  obtain ⟨c₀, c, evs, hinit, hrun, -, -, -, hmarked⟩ := Readiness.exists_marked
  have hreach := System.Reachable.run (.init hinit) hrun
  have hkept := (everything_descends hreach).kept _ _ _ hmarked.body
  exact ⟨c, hreach, hmarked.body, hkept (by decide)⟩

end Descent

end ProxyCache.Theorems.PageFlow
