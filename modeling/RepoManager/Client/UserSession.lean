import RepoManager.Client.SessionCookie
import RepoManager.Handler.Cookies
import RepoManager.Library.Unwinding

/-!
# The session of a user

One user agent, with pages of any repositories of a server open, and the server, which others use
too. The pages send requests and the replies may set a cookie; a reply with status 401 makes its
page remove the cookie of the repository, as a logout does.

To the user this is a simple machine: signed in to a repository since some moment, or not. The
cookie jar, the cookie codec and the tokens implement it. What a page reports and whom the server
admits is decided by that moment alone, by the lifetime of sessions and by that of tokens.
-/

open LexicalPath UrlPath UrlParse CookieJar

namespace RepoManager

/-! ## The sessions, to the user -/

/-- Since when the user is signed in to each repository. -/
abbrev Sessions := RepoKey → Option Int

/-- What the user sees of an exchange or a logout. -/
inductive SessionEvent where
  | signedIn (repo : RepoKey) (now : Int)
  | signedOut (repo : RepoKey)
  | other

/-- The sessions after an event. -/
def Sessions.next (sessions : Sessions) : SessionEvent → Sessions
  | .signedIn repo now => Function.update sessions repo (some now)
  | .signedOut repo => Function.update sessions repo none
  | .other => sessions

/-- A session that began at some moment is not over; a life of zero is without end. -/
def Lives (sessionLife since now : Int) : Prop :=
  sessionLife = 0 ∨ 0 < sessionLife ∧ now ≤ since + sessionLife

namespace CookieSite

/-! ## The user agent and the server -/

/-- An exchange of a page with the server. What follows the path of the repository in the URL is
what the server gets below the repository, up to escapes. -/
structure Exchange (site : CookieSite) where
  page : site.Page
  url : ByteString
  below : ByteString
  request : Request

/-- What can happen: an exchange, a logout, a request of another user agent. -/
inductive Action (site : CookieSite) where
  | exchange (exchange : site.Exchange)
  | logout (page : site.Page)
  | others (req : Request)

/-- An action after some seconds. -/
structure Turn (site : CookieSite) where
  wait : Nat
  action : site.Action

/-- The server and the user agent at a moment. -/
structure Browsing where
  world : World
  jar : Jar
  now : Int

section Browser

variable {site : CookieSite}

/-- The path under which the user agent looks up the cookies of an exchange. -/
def Exchange.requestPath (exchange : site.Exchange) : ByteString :=
  site.repoPath exchange.page.repo ++ slash :: exchange.url

/-- The request that the server gets. -/
def Exchange.sent (exchange : site.Exchange) (jar : Jar) (now : Int) : Request :=
  { exchange.request with
    path := slash :: (exchange.page.repo.name.val ++ slash :: exchange.below)
    cookies := cookiesSent jar now exchange.requestPath site.origin.secure
    now := now }

/-- The cookies after a reply, which the interceptor of `axios` sees last. -/
def Exchange.received (exchange : site.Exchange) (jar : Jar) (now : Int) : Reply → Jar
  | .panic _ => jar
  | .response answer =>
    let stored :=
      match answer.setCookie with
      | some set => receive jar now exchange.requestPath true (set.directive site.secureCookies)
      | none => jar
    if answer.status = 401 then exchange.page.removeAuthCookie stored now else stored

/-- What the user sees of a reply. -/
def Exchange.event (exchange : site.Exchange) (now : Int) : Reply → SessionEvent
  | .panic _ => .other
  | .response answer =>
    if answer.setCookie.isSome then .signedIn exchange.page.repo now
    else if answer.status = 401 then .signedOut exchange.page.repo
    else .other

/-- The next state, and what the user sees. -/
def Browsing.turn (env : Externals) (state : Browsing) (turn : site.Turn) :
    Browsing × SessionEvent :=
  let now := state.now + turn.wait
  match turn.action with
  | .exchange exchange =>
    let outcome := serveHTTP env (exchange.sent state.jar now) state.world
    (⟨outcome.world, exchange.received state.jar now outcome.reply, now⟩,
      exchange.event now outcome.reply)
  | .logout page =>
    (⟨state.world, page.removeAuthCookie state.jar now, now⟩, .signedOut page.repo)
  | .others req => (⟨(serveHTTP env req state.world).world, state.jar, now⟩, .other)

/-- The user agent and the server, as a system that takes turns. -/
def browser (env : Externals) (site : CookieSite) : Responder Browsing site.Turn SessionEvent where
  reply state turn := (state.turn env turn).2
  next state turn := (state.turn env turn).1

/-- The cookie of a session: its value is what a sign-in issued. -/
def sessionCookie (site : CookieSite) (repo : RepoKey) (since : Int) (value : ByteString) :
    Cookie where
  name := repo.name.val
  value := value
  path := site.repoPath repo
  expiry := .ofMaxAge since
    (if site.config.server.sessionLife < 0 then some 0
      else if site.config.server.sessionLife = 0 then none else some site.config.server.sessionLife)
  secureOnly := site.secureCookies
  httpOnly := false

/-- The cookie of a session expires with it. -/
theorem not_expired_sessionCookie_iff {repo : RepoKey} {since now : Int} {value : ByteString} :
    ¬ (site.sessionCookie repo since value).expired now ↔
      Lives site.config.server.sessionLife since now := by
  unfold Cookie.expired sessionCookie Lives
  rcases lt_trichotomy site.config.server.sessionLife 0 with hneg | hzero | hpos
  · have hne : ¬ site.config.server.sessionLife = 0 := by omega
    have hle : ¬ 0 < site.config.server.sessionLife := by omega
    simp [Expiry.ofMaxAge, hneg, hne, hle]
  · simp [Expiry.ofMaxAge, hzero]
  · have hne : ¬ site.config.server.sessionLife = 0 := by omega
    have hlt : ¬ site.config.server.sessionLife < 0 := by omega
    have hle : ¬ site.config.server.sessionLife ≤ 0 := by omega
    simp [Expiry.ofMaxAge, hpos, hne, hlt, hle]

/-- The server and the user agent hold what the sessions say. -/
structure Reflects (env : Externals) (site : CookieSite) (state : Browsing)
    (sessions : Sessions) : Prop where
  server : state.world.config.server = site.config.server
  holds : site.Holds state.jar
  signedOut : ∀ repo, sessions repo = none →
    ∀ cookie ∈ state.jar, cookie.name ≠ repo.name.val
  signedIn : ∀ repo since, sessions repo = some since → since ≤ state.now ∧
    ∃ value, Issued env repo.name.val since value ∧
      ∀ cookie, cookie.name = repo.name.val → ¬ cookie.expired state.now →
        (cookie ∈ state.jar ↔ cookie = site.sessionCookie repo since value)

end Browser

/-! ## What one turn does -/

section Turns

variable {env : Externals} {site : CookieSite} {sessions : Sessions} {world other : World}
  {jar : Jar} {now : Int}

/-- Time passes, and the server section stays. -/
theorem Reflects.wait (h : Reflects env site ⟨world, jar, now⟩ sessions) {later : Int}
    (hlater : now ≤ later) (hserver : other.config.server = world.config.server) :
    Reflects env site ⟨other, jar, later⟩ sessions where
  server := hserver.trans h.server
  holds := h.holds
  signedOut := h.signedOut
  signedIn := by
    intro repo since hsince
    obtain ⟨hpast, value, hissued, hjar⟩ := h.signedIn repo since hsince
    refine ⟨hpast.trans hlater, value, hissued, fun cookie hname halive => hjar cookie hname ?_⟩
    exact fun hexpired => halive (Cookie.expired_mono hexpired hlater)

/-- Two repositories have different names. -/
theorem name_ne {repo second : RepoKey} (h : repo ≠ second) : repo.name.val ≠ second.name.val :=
  fun hname => h (RepoKey.name_inj.mp hname)

/-- A session cookie is stored. -/
theorem Reflects.signIn (h : Reflects env site ⟨world, jar, now⟩ sessions) {repo : RepoKey}
    {value requestPath : ByteString} {directive : Directive}
    (hissued : Issued env repo.name.val now value)
    (hcookie : directive.cookie now requestPath = site.sessionCookie repo now value) :
    Reflects env site ⟨world, receive jar now requestPath true directive, now⟩
      (sessions.next (.signedIn repo now)) := by
  have hmem : ∀ cookie, cookie ∈ receive jar now requestPath true directive ↔
      (cookie = site.sessionCookie repo now value ∨
        cookie ∈ jar ∧ ¬ cookie.same (site.sessionCookie repo now value)) ∧
      ¬ cookie.expired now := by
    intro cookie
    rw [mem_receive_iff (Or.inl rfl), hcookie]
  refine ⟨h.server, ?_, ?_, ?_⟩
  · intro cookie hstored
    rcases ((hmem cookie).mp hstored).1 with rfl | ⟨hold, -⟩
    · exact ⟨repo, rfl, rfl, rfl⟩
    · exact h.holds cookie hold
  · intro second hnone cookie hstored
    have hne : second ≠ repo := by
      rintro rfl
      simp [Sessions.next] at hnone
    rw [Sessions.next, Function.update_of_ne hne] at hnone
    rcases ((hmem cookie).mp hstored).1 with rfl | ⟨hold, -⟩
    · exact name_ne hne.symm
    · exact h.signedOut second hnone cookie hold
  · intro second since hsince
    by_cases hsecond : second = repo
    · subst hsecond
      rw [Sessions.next, Function.update_self] at hsince
      obtain rfl := Option.some.inj hsince
      refine ⟨Int.le_refl _, value, hissued, fun cookie hname halive => ?_⟩
      rw [hmem]
      constructor
      · rintro ⟨hnew | ⟨hold, hdiffers⟩, -⟩
        · exact hnew
        · obtain ⟨third, hthird, hpath, -⟩ := h.holds cookie hold
          have hthird : third = second := RepoKey.name_inj.mp (hthird.symm.trans hname)
          exact absurd (by simp [Cookie.same, sessionCookie, hname, hpath, hthird]) hdiffers
      · exact fun hnew => ⟨Or.inl hnew, halive⟩
    · rw [Sessions.next, Function.update_of_ne hsecond] at hsince
      obtain ⟨hpast, issued, hissued, hjar⟩ := h.signedIn second since hsince
      refine ⟨hpast, issued, hissued, fun cookie hname halive => ?_⟩
      rw [hmem, ← hjar cookie hname halive]
      have hne : cookie.name ≠ repo.name.val := hname ▸ name_ne hsecond
      constructor
      · rintro ⟨rfl | ⟨hold, -⟩, -⟩
        · exact absurd rfl hne
        · exact hold
      · exact fun hold => ⟨Or.inr ⟨hold, by simp [Cookie.same, sessionCookie, hne]⟩, halive⟩

/-- A page removes the cookie of its repository. -/
theorem Reflects.signOut (h : Reflects env site ⟨world, jar, now⟩ sessions) (page : site.Page) :
    Reflects env site ⟨world, page.removeAuthCookie jar now, now⟩
      (sessions.next (.signedOut page.repo)) := by
  have hmem := fun cookie => @Page.mem_removeAuthCookie_iff site page jar h.holds now cookie
  refine ⟨h.server, page.holds_removeAuthCookie h.holds now, ?_, ?_⟩
  · intro repo hnone cookie hcookie
    obtain ⟨hold, hne, -⟩ := (hmem cookie).mp hcookie
    by_cases hrepo : repo = page.repo
    · rw [hrepo]
      exact hne
    · rw [Sessions.next, Function.update_of_ne hrepo] at hnone
      exact h.signedOut repo hnone cookie hold
  · intro repo since hsince
    have hrepo : repo ≠ page.repo := by
      rintro rfl
      simp [Sessions.next] at hsince
    rw [Sessions.next, Function.update_of_ne hrepo] at hsince
    obtain ⟨hpast, value, hissued, hjar⟩ := h.signedIn repo since hsince
    refine ⟨hpast, value, hissued, fun cookie hname halive => ?_⟩
    rw [hmem, ← hjar cookie hname halive]
    have hne : cookie.name ≠ page.repo.name.val := hname ▸ name_ne hrepo
    exact and_iff_left ⟨hne, halive⟩

/-- The router finds the repository of the page. -/
theorem Exchange.repoVar_sent (exchange : site.Exchange) {found : Mux.Found Endpoint Middleware}
    (hfound : route (exchange.sent jar now).method (exchange.sent jar now).path = some found) :
    repoVar found.vars = exchange.page.repo.name.val := by
  have hhead := repo_of_route hfound
  have hpath : components (exchange.sent jar now).path =
      [] :: exchange.page.repo.name.val :: components exchange.below := by
    have hname := components_append exchange.page.repo.name.val exchange.below
    rw [components_of_slash_notMem exchange.page.repo.name.property.2.1] at hname
    exact (components_append [] _).trans (congrArg (components [] ++ ·) hname)
  rw [hpath] at hhead
  exact (Option.some.inj hhead).symm

/-- The cookie that a reply sets is the one of a session. -/
theorem Exchange.cookie_of_sets (hurl : env.urlPath = site.urlPath)
    (hstatic : ∀ path, (env.fileServer path).setCookie = none)
    (hserver : world.config.server = site.config.server) (exchange : site.Exchange)
    {set : SetCookie} (h : (serveHTTP env (exchange.sent jar now) world).reply.Sets set) :
    (serveHTTP env (exchange.sent jar now) world).reply = .response ⟨200, some set, .empty⟩ ∧
      Issued env exchange.page.repo.name.val now set.value ∧
      (set.directive site.secureCookies).cookie now exchange.requestPath =
        site.sessionCookie exchange.page.repo now set.value := by
  obtain ⟨found, hfound, hsame, hreply, hissued⟩ := signIn_of_sets hstatic h
  have hrepo := exchange.repoVar_sent hfound
  rw [hrepo] at hissued
  refine ⟨hsame.trans hreply, hissued, ?_⟩
  obtain ⟨value, hset⟩ := SignIn.set_eq ⟨exchange.page.repo, exchange.requestPath, set, now, env,
    found.vars, exchange.sent jar now, world, hurl, hrepo, hserver, hreply⟩
  dsimp only at hset
  subst hset
  simp only [SetCookie.directive, Directive.cookie, sessionCookie, site.head?_repoPath, if_true,
    Option.getD_some]

/-- After an exchange the user agent holds what the sessions say. -/
theorem Reflects.exchange (hurl : env.urlPath = site.urlPath)
    (hstatic : ∀ path, (env.fileServer path).setCookie = none)
    (h : Reflects env site ⟨world, jar, now⟩ sessions) (exchange : site.Exchange) :
    let reply := (serveHTTP env (exchange.sent jar now) world).reply
    Reflects env site ⟨world, exchange.received jar now reply, now⟩
      (sessions.next (exchange.event now reply)) := by
  have hsets := fun set => @Exchange.cookie_of_sets env site world jar now hurl hstatic h.server
    exchange set
  dsimp only
  generalize (serveHTTP env (exchange.sent jar now) world).reply = reply at hsets ⊢
  cases reply with
  | panic panic => exact h
  | response answer =>
    obtain ⟨status, setCookie, body⟩ := answer
    cases setCookie with
    | none =>
      by_cases hstatus : status = 401
      · simp only [Exchange.received, Exchange.event, hstatus, if_true]
        exact h.signOut exchange.page
      · simp only [Exchange.received, Exchange.event, hstatus, if_false]
        exact h
    | some set =>
      obtain ⟨hreply, hissued, hcookie⟩ := hsets set ⟨status, body, rfl⟩
      obtain ⟨rfl, -, -⟩ := Response.mk.inj (Reply.response.inj hreply)
      exact h.signIn hissued hcookie

/-- Every turn keeps what the server and the user agent hold in step with the sessions. -/
theorem Reflects.turn (hurl : env.urlPath = site.urlPath)
    (hstatic : ∀ path, (env.fileServer path).setCookie = none) {state : Browsing}
    (h : Reflects env site state sessions) (turn : site.Turn) :
    Reflects env site ((browser env site).next state turn)
      (sessions.next ((browser env site).reply state turn)) := by
  have hlater : state.now ≤ state.now + turn.wait := by omega
  obtain ⟨wait, action⟩ := turn
  cases action with
  | exchange exchange =>
    have hready : Reflects env site ⟨state.world, state.jar, state.now + wait⟩ sessions :=
      h.wait hlater rfl
    exact (hready.exchange hurl hstatic exchange).wait (Int.le_refl _) server_serveHTTP
  | logout page =>
    have hready : Reflects env site ⟨state.world, state.jar, state.now + wait⟩ sessions :=
      h.wait hlater rfl
    exact hready.signOut page
  | others req => exact h.wait hlater server_serveHTTP

end Turns

/-! ## What a page reports, and whom the server admits -/

/-- The user is signed in to a repository since some moment, and the session is not over. A secure
cookie is of no use without TLS. -/
structure Open (site : CookieSite) (sessions : Sessions) (repo : RepoKey) (since now : Int) :
    Prop where
  signedIn : sessions repo = some since
  lives : Lives site.config.server.sessionLife since now
  secure : site.secureCookies → site.origin.secure

section Queries

variable {env : Externals} {site : CookieSite} {sessions : Sessions} {world : World} {jar : Jar}
  {now : Int} (h : Reflects env site ⟨world, jar, now⟩ sessions)

include h

/-- A cookie that is not expired is that of an open session. -/
theorem Reflects.open_of_mem {repo : RepoKey} {cookie : Cookie} (hname : cookie.name = repo.name.val)
    (hcookie : cookie ∈ jar) (halive : ¬ cookie.expired now)
    (hsecure : cookie.secureOnly → site.origin.secure) :
    ∃ since value, site.Open sessions repo since now ∧ Issued env repo.name.val since value ∧
      cookie = site.sessionCookie repo since value := by
  cases hsince : sessions repo with
  | none => exact absurd hname (h.signedOut repo hsince cookie hcookie)
  | some since =>
    obtain ⟨-, value, hissued, hjar⟩ := h.signedIn repo since hsince
    obtain rfl := (hjar cookie hname halive).mp hcookie
    have hlives := not_expired_sessionCookie_iff.mp halive
    exact ⟨since, value, ⟨hsince, hlives, hsecure⟩, hissued, rfl⟩

/-- An open session has its cookie in the jar. -/
theorem Reflects.exists_cookie {repo : RepoKey} {since : Int}
    (hopen : site.Open sessions repo since now) :
    ∃ value, Issued env repo.name.val since value ∧ site.sessionCookie repo since value ∈ jar := by
  obtain ⟨-, value, hissued, hjar⟩ := h.signedIn repo since hopen.signedIn
  exact ⟨value, hissued, (hjar _ rfl (not_expired_sessionCookie_iff.mpr hopen.lives)).mpr rfl⟩

/-- A page reports the open session of its repository. -/
theorem Reflects.isAuthCookie_iff (page : site.Page) :
    page.isAuthCookie jar now ↔ ∃ since, site.Open sessions page.repo since now := by
  rw [page.isAuthCookie_iff h.holds]
  constructor
  · rintro ⟨cookie, hcookie, hname, halive, hsecure⟩
    obtain ⟨since, -, hopen, -⟩ := h.open_of_mem hname hcookie halive hsecure
    exact ⟨since, hopen⟩
  · rintro ⟨since, hopen⟩
    obtain ⟨value, -, hcookie⟩ := h.exists_cookie hopen
    exact ⟨_, hcookie, rfl, not_expired_sessionCookie_iff.mpr hopen.lives, hopen.secure⟩

/-- An exchange sends the cookie of its repository and no other. -/
theorem Exchange.visible_iff (exchange : site.Exchange) {cookie : Cookie} (hcookie : cookie ∈ jar) :
    cookie.visible now exchange.requestPath site.origin.secure true ↔
      cookie.name = exchange.page.repo.name.val ∧ ¬ cookie.expired now ∧
        (cookie.secureOnly → site.origin.secure) := by
  obtain ⟨repo, hname, hpath, -⟩ := h.holds cookie hcookie
  have hmatch : pathMatch exchange.requestPath (site.repoPath repo) ↔
      repo.name.val = exchange.page.repo.name.val := by
    rw [Exchange.requestPath, repoPath, repoPath, List.append_assoc, List.cons_append]
    exact pathMatch_iff repo.name.property.2.1 repo.name.property.1
      exchange.page.repo.name.property.2.1
  simp only [Cookie.visible, hpath, hname, Bool.and_eq_true, hmatch]
  cases cookie.expired now <;> cases cookie.secureOnly <;> simp

/-- The server finds the cookie of the open session. -/
theorem Exchange.lookup_sent_iff (exchange : site.Exchange) {value : ByteString} :
    (exchange.sent jar now).cookies.lookup exchange.page.repo.name.val = some value ↔
      ∃ since, site.Open sessions exchange.page.repo since now ∧
        Issued env exchange.page.repo.name.val since value ∧
        site.sessionCookie exchange.page.repo since value ∈ jar := by
  constructor
  · intro hlookup
    obtain ⟨cookie, hcookie, hseen, hname, rfl⟩ := exists_of_lookup_cookiesSent hlookup
    obtain ⟨-, halive, hsecure⟩ := (exchange.visible_iff h hcookie).mp hseen
    obtain ⟨since, value, hopen, hissued, rfl⟩ := h.open_of_mem hname hcookie halive hsecure
    exact ⟨since, hopen, hissued, hcookie⟩
  · rintro ⟨since, hopen, hissued, hcookie⟩
    have hseen : (site.sessionCookie exchange.page.repo since value).visible now
        exchange.requestPath site.origin.secure true :=
      (exchange.visible_iff h hcookie).mpr
        ⟨rfl, not_expired_sessionCookie_iff.mpr hopen.lives, hopen.secure⟩
    refine lookup_cookiesSent hcookie hseen fun other hother hvisible hname => ?_
    have halive := ((exchange.visible_iff h hother).mp hvisible).2.1
    obtain ⟨-, issued, -, hjar⟩ := h.signedIn _ since hopen.signedIn
    rw [(hjar other hname halive).mp hother]
    exact ((hjar _ rfl (not_expired_sessionCookie_iff.mpr hopen.lives)).mp hcookie).symm

/-- The server admits whom it gave a session that is open, as long as the token lives. -/
theorem Reflects.admitted_iff (hsound : env.jwt.Sound) (hcomplete : env.jwt.Complete)
    (hstore : env.store.Sound) (hage : env.store.KeepsFor cookieAge) (exchange : site.Exchange) :
    (∃ token, Authenticated env (exchange.sent jar now) exchange.page.repo.name.val token) ↔
      ∃ since, site.Open sessions exchange.page.repo since now ∧ now ≤ since + tokenTTL := by
  constructor
  · rintro ⟨token, hadmitted⟩
    obtain ⟨cookie, decoded, hlookup, hdecode, htoken⟩ := cookie_of_authenticated hadmitted
    obtain ⟨since, hopen, hissued, -⟩ := (exchange.lookup_sent_iff h).mp hlookup
    obtain ⟨values, signed, hencode, hsigned, hsign⟩ := hissued.session
    obtain rfl := hstore _ values since cookie _ decoded hencode hdecode
    obtain rfl := Option.some.inj (htoken.symm.trans hsigned)
    exact ⟨since, hopen, (signed_of_parseToken hsound hsign hadmitted.2).2⟩
  · rintro ⟨since, hopen, hend⟩
    obtain ⟨value, hissued, hcookie⟩ := h.exists_cookie hopen
    obtain ⟨hpast, -⟩ := h.signedIn _ since hopen.signedIn
    have hlookup := (exchange.lookup_sent_iff h).mpr ⟨since, hopen, hissued, hcookie⟩
    obtain ⟨values, token, hencode, htoken, hsign⟩ := hissued.session
    have hdecode : env.store.decode exchange.page.repo.name.val value now = .ok values := by
      apply hage _ _ since value now hencode hpast
      simp only [cookieAge, tokenTTL] at hend ⊢
      omega
    refine ⟨token, ⟨values, ?_, htoken⟩, ?_⟩
    · rw [sessionGet, if_pos hissued.validName, hlookup]
      exact hdecode
    · exact (AuthService.parseToken_eq_ok_iff ..).mpr
        ⟨_, hcomplete _ _ token now hsign hpast hend, rfl⟩

end Queries

/-- The sessions of a run: nobody is signed in when it starts. -/
def sessionsAfter (env : Externals) (site : CookieSite) (start : Browsing)
    (turns : List site.Turn) : Sessions :=
  ((browser env site).replies start turns).foldl Sessions.next fun _ => none

end CookieSite

open CookieSite in
/-- In every run, whatever other user agents do, the user is served by the simple machine. A page
reports a session exactly when the user is signed in to its repository and the session is not over.
The server admits the requests of the page exactly when, besides, the token has not expired. -/
theorem session_exact (env : Externals) (site : CookieSite) (world : World) (start : Int)
    (hurl : env.urlPath = site.urlPath) (hserver : world.config.server = site.config.server)
    (hstatic : ∀ path, (env.fileServer path).setCookie = none) (hsound : env.jwt.Sound)
    (hcomplete : env.jwt.Complete) (hstore : env.store.Sound) (hage : env.store.KeepsFor cookieAge)
    (turns : List site.Turn) (now : Int) :
    let state := (browser env site).after ⟨world, [], start⟩ turns
    let sessions := sessionsAfter env site ⟨world, [], start⟩ turns
    state.now ≤ now →
      (∀ page : site.Page, page.isAuthCookie state.jar now ↔
        ∃ since, site.Open sessions page.repo since now) ∧
      ∀ exchange : site.Exchange,
        (∃ token, Authenticated env (exchange.sent state.jar now) exchange.page.repo.name.val token) ↔
          ∃ since, site.Open sessions exchange.page.repo since now ∧ now ≤ since + tokenTTL := by
  intro state sessions hnow
  have hstart : Reflects env site ⟨world, [], start⟩ fun _ => none :=
    ⟨hserver, fun _ hcookie => absurd hcookie List.not_mem_nil,
      fun _ _ _ hcookie => absurd hcookie List.not_mem_nil, fun _ _ hsince => by contradiction⟩
  have hreflects : Reflects env site state sessions :=
    (browser env site).after_refines (fun _ _ turn h => h.turn hurl hstatic turn) hstart turns
  have hlater : Reflects env site ⟨state.world, state.jar, now⟩ sessions :=
    Reflects.wait hreflects hnow rfl
  exact ⟨hlater.isAuthCookie_iff, hlater.admitted_iff hsound hcomplete hstore hage⟩

namespace CookieSite

/-- The sample packages, for the sample site. -/
def browsingExternals : Externals := { Externals.sample with urlPath := sample.urlPath }

/-- An exchange of a page of `kes`, with this path below the repository. -/
def sampleExchange (path : String) : sample.Exchange where
  page := samplePage false
  url := ascii path
  below := ascii path
  request := sampleSignIn

/-- Cookies of the sample store are read as they were encoded. -/
theorem sample_store_sound : CookieStore.sample.Sound := by
  intro name values issued cookie now decoded hencode hdecode
  simp only [CookieStore.sample] at hencode hdecode
  split at hencode
  · next hsession =>
    split at hdecode
    · obtain rfl := Except.ok.inj hdecode
      exact (AList.ext hsession.2.1).symm
    · contradiction
  · contradiction

/-- The sign-in of the sample page is accepted. -/
theorem reply_sampleExchange :
    (serveHTTP browsingExternals ((sampleExchange "sign-in").sent [] 0) sampleWorld).reply =
      .response
        ⟨200, some ⟨ascii "kes", ascii "cookie", ascii "/rpm/kes", 60, false⟩, .empty⟩ := by
  have hsent : (sampleExchange "sign-in").sent [] 0 = sampleSignIn := by
    simp only [Exchange.sent, cookiesSent, List.filter_nil, List.mergeSort_nil, List.map_nil]
    rfl
  rw [hsent]
  rfl

/-- A minute after a sign-in the page reports the session and is admitted; a second later the
session is over. -/
theorem sample_session_exact :
    let state := (browser browsingExternals sample).after ⟨sampleWorld, [], 0⟩
      [⟨0, .exchange (sampleExchange "sign-in")⟩]
    (samplePage false).isAuthCookie state.jar 60 ∧
      (∃ token, Authenticated browsingExternals
        ((sampleExchange "files/reindex").sent state.jar 60) (ascii "kes") token) ∧
      (samplePage false).isAuthCookie state.jar 61 = false := by
  intro state
  have hsessions : sessionsAfter browsingExternals sample ⟨sampleWorld, [], 0⟩
      [⟨0, .exchange (sampleExchange "sign-in")⟩] =
        Function.update (fun _ => none) (sampleRepo false) (some 0) :=
    congrArg (fun reply => Sessions.next (fun _ => none) ((sampleExchange "sign-in").event 0 reply))
      reply_sampleExchange
  have hexact := session_exact browsingExternals sample sampleWorld 0 rfl rfl (fun _ => rfl)
    Jwt.sample_sound Jwt.sample_complete sample_store_sound CookieStore.sample_keepsFor
    [⟨0, .exchange (sampleExchange "sign-in")⟩]
  have hminute := hexact 60 (by decide)
  rw [hsessions] at hexact hminute
  have hopen : sample.Open (Function.update (fun _ => none) (sampleRepo false) (some 0))
      (sampleRepo false) 0 60 :=
    ⟨Function.update_self .., Or.inr ⟨by decide, by decide⟩, fun _ => rfl⟩
  refine ⟨(hminute.1 _).mpr ⟨0, hopen⟩, (hminute.2 _).mpr ⟨0, hopen, by decide⟩, ?_⟩
  refine Bool.eq_false_iff.mpr fun hreported => ?_
  obtain ⟨since, hlate⟩ := ((hexact 61 (by decide)).1 _).mp hreported
  have hsince := hlate.signedIn
  rw [show (samplePage false).repo = sampleRepo false from rfl, Function.update_self] at hsince
  obtain rfl := Option.some.inj hsince
  exact absurd hlate.lives (by unfold Lives; decide)

end CookieSite

end RepoManager
