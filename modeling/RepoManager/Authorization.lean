import RepoManager.Handler.Calls

/-!
# Authorization over whole runs

A run is a sequence of requests of any clients. The only assumption on cookies is that the server
encoded those it accepts: a client may replay them, or present them to another repository.

Whenever the server writes to a repository, an accepted sign-in to that repository issued the
token that was presented, at most `tokenTTL` before. How old that sign-in may be is decided by
the token alone: `sessionLaw_iff` compares it with `SessionLife`.
-/

open LexicalPath

namespace RepoManager

/-- The server after a sequence of requests. -/
def serveAll (env : Externals) (world : World) (requests : List Request) : World :=
  requests.foldl (fun world req => (serveHTTP env req world).world) world

/-- What a request results in after others. -/
def outcomeAfter (env : Externals) (world : World) (before : List Request) (req : Request) :
    Outcome :=
  serveHTTP env req (serveAll env world before)

/-- A session cookie decodes only if the server encoded it under that name in an earlier
request. -/
def Unforgeable (env : Externals) (world : World) (requests : List Request) : Prop :=
  ∀ before req after, requests = before ++ req :: after → ∀ name cookie values,
    req.cookies.lookup name = some cookie → env.store.decode name cookie req.now = .ok values →
    ∃ earlier issuer between, before = earlier ++ issuer :: between ∧
      .saveSession name values cookie ∈ (outcomeAfter env world earlier issuer).calls

section Runs

variable {env : Externals} {world : World}

/-- An admitted request presents a cookie, whose session holds its token. -/
theorem cookie_of_authenticated {req : Request} {repoName token : ByteString}
    (h : Authenticated env req repoName token) :
    ∃ cookie values, req.cookies.lookup repoName = some cookie ∧
      env.store.decode repoName cookie req.now = .ok values ∧
      values.lookup repoName = some token := by
  obtain ⟨⟨values, hget, htoken⟩, -⟩ := h
  unfold sessionGet at hget
  split at hget
  · split at hget
    · obtain rfl := Except.ok.inj hget
      exact nomatch htoken
    · next cookie hcookie => exact ⟨cookie, values, hcookie, hget, htoken⟩
  · exact nomatch hget

/-- A token that is parsed was signed for that repository, at most `tokenTTL` before. -/
theorem signed_of_parseToken (hjwt : env.jwt.Sound) {token repoName other : ByteString}
    {issued now : Int} (hsign : env.jwt.sign ⟨issued + tokenTTL, issued, repoName⟩ = .ok token)
    (hparse : AuthService.parseToken env.jwt now token other = .ok ()) :
    repoName = other ∧ now ≤ issued + tokenTTL := by
  obtain ⟨payload, hpayload, hrepo⟩ := (AuthService.parseToken_eq_ok_iff ..).mp hparse
  obtain ⟨rfl, hnow⟩ := hjwt issued repoName token payload now hsign hpayload
  exact ⟨hrepo, hnow⟩

/-- An admitted request presents the token of an earlier accepted sign-in to that repository. -/
theorem signedIn_of_authenticated (hjwt : env.jwt.Sound) {before after : List Request}
    {req : Request} (hcookies : Unforgeable env world (before ++ req :: after))
    {repoName token : ByteString} (h : Authenticated env req repoName token) :
    ∃ earlier signIn between, before = earlier ++ signIn :: between ∧
      SignedIn env signIn (serveAll env world earlier) repoName token ∧
      req.now - signIn.now ≤ tokenTTL := by
  obtain ⟨cookie, values, hcookie, hdecode, htoken⟩ := cookie_of_authenticated h
  obtain ⟨earlier, signIn, between, hbefore, hsave⟩ :=
    hcookies before req after rfl repoName cookie values hcookie hdecode
  have hsigned : SignedIn env signIn (serveAll env world earlier) repoName token :=
    signedIn_of_call hsave (Or.inr ⟨values, cookie, rfl, htoken⟩)
  have hnow := (signed_of_parseToken hjwt hsigned.signed h.2).2
  refine ⟨earlier, signIn, between, hbefore, hsigned, ?_⟩
  omega

end Runs

/-- Whenever the server writes to a repository, an earlier sign-in to it was accepted by its
directory server and issued the presented token, at most twelve hours before. The guarded
handlers are reached only inside `authenticate`, and no token is accepted for another
repository. -/
theorem writes_after_signIn (env : Externals) (world : World) (requests : List Request)
    (hjwt : env.jwt.Sound) (hcookies : Unforgeable env world requests) :
    (∀ before req after, requests = before ++ req :: after →
      ∀ call ∈ (outcomeAfter env world before req).calls, ∀ repoName, call.WritesTo repoName →
      ∃ earlier signIn between token, before = earlier ++ signIn :: between ∧
        SignedIn env signIn (serveAll env world earlier) repoName token ∧
        .parseToken repoName token ∈ (outcomeAfter env world before req).calls ∧
        req.now - signIn.now ≤ tokenTTL) ∧
    (∀ method path found, route method path = some found →
      found.handler = .handleFileUploading ∨ found.handler = .handleFileReindexes →
      .authenticate ∈ found.middlewares) ∧
    ∀ getUser issued login password repoName conf token,
      AuthService.generateToken env.jwt getUser issued login password repoName conf = .ok token →
      ∀ now other, AuthService.parseToken env.jwt now token other = .ok () → repoName = other := by
  refine ⟨?_, ?_, ?_⟩
  · rintro before req after rfl call hcall repoName hwrites
    obtain ⟨token, hadmitted, hparse⟩ := authenticated_of_writesTo hcall hwrites
    obtain ⟨earlier, signIn, between, hbefore, hsigned, hnow⟩ :=
      signedIn_of_authenticated hjwt hcookies hadmitted
    exact ⟨earlier, signIn, between, token, hbefore, hsigned, hparse, hnow⟩
  · intro method path found hfound hhandler
    exact authenticate_of_route hfound hhandler
  · intro getUser issued login password repoName conf token htoken now other hparse
    obtain ⟨-, hsign⟩ := (AuthService.generateToken_eq_ok_iff ..).mp htoken
    exact (signed_of_parseToken hjwt hsign hparse).1

/-! ## Session lifetime -/

/-- A cookie is accepted for this many seconds after it was encoded. -/
def CookieStore.KeepsFor (store : CookieStore) (age : Int) : Prop :=
  ∀ name values issued cookie now, store.encode name values issued = .ok cookie →
    issued ≤ now → now ≤ issued + age → store.decode name cookie now = .ok values

/-- The age that `NewCookieStore` fixes: thirty days. -/
def cookieAge : Int := 30 * 24 * 60 * 60

/-- No write on the strength of a sign-in older than `SessionLife`: one whose session holds the
presented token. -/
def SessionLaw (env : Externals) (world : World) (requests : List Request) : Prop :=
  ∀ earlier signIn between req after,
    requests = earlier ++ signIn :: between ++ req :: after →
    ∀ repoName values cookie token,
      .saveSession repoName values cookie ∈ (outcomeAfter env world earlier signIn).calls →
      values.lookup repoName = some token →
      .parseToken repoName token ∈
        (outcomeAfter env world (earlier ++ signIn :: between) req).calls →
      (∃ call ∈ (outcomeAfter env world (earlier ++ signIn :: between) req).calls,
        call.WritesTo repoName) →
      req.now - signIn.now ≤ world.config.server.sessionLife

/-- A client without cookies can sign in, and then write with the cookie it was given. -/
structure Usable (env : Externals) (world : World) (signIn write : Request)
    (repoName : ByteString) (values : SessionValues) (cookie : ByteString) : Prop where
  fresh : signIn.cookies = []
  saved : .saveSession repoName values cookie ∈ (serveHTTP env signIn world).calls
  presented : write.cookies = [(repoName, cookie)]
  writes : ∃ call ∈ (serveHTTP env write (serveHTTP env signIn world).world).calls,
    call.WritesTo repoName

section Lifetime

variable {env : Externals} {world : World} {signIn write : Request} {repoName cookie : ByteString}
  {values : SessionValues}

/-- The cookie of a sign-in is admitted as long as its token lives. -/
theorem authenticated_of_saveSession (hcomplete : env.jwt.Complete)
    (hage : env.store.KeepsFor cookieAge) (hvalid : env.store.validName repoName)
    (hsaved : .saveSession repoName values cookie ∈ (serveHTTP env signIn world).calls)
    (hpresented : write.cookies = [(repoName, cookie)]) {now : Int} (hstart : signIn.now ≤ now)
    (hend : now ≤ signIn.now + tokenTTL) :
    ∃ token, values.lookup repoName = some token ∧
      Authenticated env { write with now := now } repoName token := by
  obtain ⟨token, htoken, hencode⟩ := session_of_saveSession hsaved
  have hsigned := signedIn_of_call hsaved (Or.inr ⟨values, cookie, rfl, htoken⟩)
  have hdecode : env.store.decode repoName cookie now = .ok values := by
    apply hage repoName values signIn.now cookie now hencode hstart
    simp only [cookieAge, tokenTTL] at hend ⊢
    omega
  refine ⟨token, htoken, ⟨values, ?_, htoken⟩, ?_⟩
  · simp only [sessionGet, hvalid, hpresented, if_true, List.lookup_cons_self]
    exact hdecode
  · exact (AuthService.parseToken_eq_ok_iff ..).mpr
      ⟨_, hcomplete _ _ token now hsigned.signed hstart hend, rfl⟩

/-- A session is only read under a valid name. -/
theorem validName_of_authenticated {token : ByteString}
    (h : Authenticated env write repoName token) : env.store.validName repoName := by
  obtain ⟨⟨values, hget, -⟩, -⟩ := h
  unfold sessionGet at hget
  split at hget
  · next hvalid => exact hvalid
  · exact nomatch hget

/-- The two requests of a client that signs in and then presents its cookie need no forged one. -/
theorem unforgeable_of_saveSession (hage : env.store.KeepsFor cookieAge)
    (hfresh : signIn.cookies = [])
    (hsaved : .saveSession repoName values cookie ∈ (serveHTTP env signIn world).calls)
    (hpresented : write.cookies = [(repoName, cookie)]) {now : Int} (hstart : signIn.now ≤ now)
    (hend : now ≤ signIn.now + tokenTTL) :
    Unforgeable env world [signIn, { write with now := now }] := by
  intro before req after hsplit name presented decoded hcookie hdecode
  cases before with
  | nil =>
    obtain ⟨rfl, -⟩ := List.cons.inj hsplit
    rw [hfresh] at hcookie
    exact nomatch hcookie
  | cons first before =>
    obtain ⟨rfl, hrest⟩ := List.cons.inj hsplit
    cases before with
    | cons second before => simp at hrest
    | nil =>
      obtain ⟨rfl, -⟩ := List.cons.inj hrest
      obtain ⟨token, -, hencode⟩ := session_of_saveSession hsaved
      simp only [hpresented, List.lookup_cons, List.lookup_nil] at hcookie
      split at hcookie
      · next hname =>
        obtain rfl := Option.some.inj hcookie
        obtain rfl := eq_of_beq hname
        have hkept : env.store.decode name cookie now = .ok values := by
          apply hage name values signIn.now cookie now hencode hstart
          simp only [cookieAge, tokenTTL] at hend ⊢
          omega
        obtain rfl := Except.ok.inj (hkept.symm.trans hdecode)
        exact ⟨[], signIn, [], rfl, hsaved⟩
      · exact nomatch hcookie

/-- Where tokens outlive `SessionLife`, a client that keeps its cookie makes the server write on the
strength of an older sign-in. -/
theorem Usable.not_sessionLaw (h : Usable env world signIn write repoName values cookie)
    (hcomplete : env.jwt.Complete) (hage : env.store.KeepsFor cookieAge)
    (hlt : world.config.server.sessionLife < tokenTTL) :
    ∃ requests, Unforgeable env world requests ∧ ¬ SessionLaw env world requests := by
  -- the write of the client, at the last second of its token
  have hstart : signIn.now ≤ signIn.now + tokenTTL := by
    simp only [tokenTTL]
    omega
  refine ⟨[signIn, { write with now := signIn.now + tokenTTL }],
    unforgeable_of_saveSession hage h.fresh h.saved h.presented hstart (Int.le_refl _), ?_⟩
  intro hlaw
  obtain ⟨call, hcall, hwrites⟩ := h.writes
  obtain ⟨_, hadmitted, -⟩ := authenticated_of_writesTo hcall hwrites
  obtain ⟨token, htoken, hlate⟩ := authenticated_of_saveSession hcomplete hage
    (validName_of_authenticated hadmitted) h.saved h.presented hstart (Int.le_refl _)
  have hlateCall := writes_at hcall hwrites hlate
  obtain ⟨other, hother, hparse⟩ := authenticated_of_writesTo hlateCall hwrites
  have hsame : other = token := by
    obtain ⟨⟨left, hleft, hleftToken⟩, -⟩ := hother
    obtain ⟨⟨right, hright, hrightToken⟩, -⟩ := hlate
    obtain rfl := Except.ok.inj (hleft.symm.trans hright)
    exact Option.some.inj (hleftToken.symm.trans hrightToken)
  subst hsame
  have hbound := hlaw [] signIn [] { write with now := signIn.now + tokenTTL } [] rfl repoName
    values cookie other h.saved htoken hparse ⟨call, hlateCall, hwrites⟩
  simp only at hbound
  omega

end Lifetime

/-- Where tokens do not outlive `SessionLife`, no run writes on the strength of an older sign-in.
Where they do, some run does, as soon as a client can sign in and write at all. -/
theorem sessionLaw_of_tokenTTL_le (env : Externals) (world : World) (hjwt : env.jwt.Sound) :
    (tokenTTL ≤ world.config.server.sessionLife → ∀ requests, SessionLaw env world requests) ∧
    (env.jwt.Complete → env.store.KeepsFor cookieAge →
      (∃ signIn write repoName values cookie,
        Usable env world signIn write repoName values cookie) →
      world.config.server.sessionLife < tokenTTL →
      ∃ requests, Unforgeable env world requests ∧ ¬ SessionLaw env world requests) := by
  refine ⟨?_, ?_⟩
  · intro hle requests earlier signIn between req after _ repoName values cookie token hsaved
      htoken hparse _
    have hsigned := signedIn_of_call hsaved (Or.inr ⟨values, cookie, rfl, htoken⟩)
    have hnow := (signed_of_parseToken hjwt hsigned.signed (authenticated_of_parseToken hparse).2).2
    omega
  · rintro hcomplete hage ⟨signIn, write, repoName, values, cookie, husable⟩ hlt
    exact husable.not_sessionLaw hcomplete hage hlt

/-! ## A server on which the model can be run -/

/-- The claims of a token for the repository `kes`, issued at the start of time. -/
def sampleClaims : TokenClaims where
  expiresAt := tokenTTL
  issuedAt := 0
  repo := ascii "kes"

/-- The JWT library, on that token. -/
def Jwt.sample : Jwt where
  sign claims :=
    if claims = sampleClaims then .ok (ascii "token") else .error (ascii "unknown claims")
  parse token now :=
    if token = ascii "token" ∧ 0 ≤ now ∧ now ≤ tokenTTL then .ok sampleClaims
    else .error (ascii "token is expired")

/-- Its tokens are read as they were signed. -/
theorem Jwt.sample_sound : Jwt.sample.Sound := by
  intro issued repoName token parsed now hsign hparse
  simp only [Jwt.sample] at hsign hparse
  split at hsign
  · next hclaims =>
    split at hparse
    · next hvalid =>
      obtain rfl := Except.ok.inj hparse
      have hexpires : issued + tokenTTL = tokenTTL := congrArg TokenClaims.expiresAt hclaims
      exact ⟨hclaims.symm, hexpires.symm ▸ hvalid.2.2⟩
    · exact nomatch hparse
  · exact nomatch hsign

/-- Its tokens are accepted until they expire. -/
theorem Jwt.sample_complete : Jwt.sample.Complete := by
  intro issued repoName token now hsign hissued hexpires
  simp only [Jwt.sample] at hsign ⊢
  split at hsign
  · next hclaims =>
    obtain rfl := Except.ok.inj hsign
    obtain rfl : issued = 0 := congrArg TokenClaims.issuedAt hclaims
    rw [hclaims, if_pos ⟨rfl, hissued, by omega⟩]
  · exact nomatch hsign

/-- The session that holds that token. -/
def sampleSession : SessionValues := (∅ : SessionValues).insert (ascii "kes") (ascii "token")

/-- The cookie store, on that session. -/
def CookieStore.sample : CookieStore where
  validName name := name ≠ []
  encode name values now :=
    if name = ascii "kes" ∧ values.entries = sampleSession.entries ∧ now = 0 then .ok (ascii "cookie")
    else .error (ascii "unknown session")
  decode name cookie now :=
    if name = ascii "kes" ∧ cookie = ascii "cookie" ∧ 0 ≤ now ∧ now ≤ cookieAge then
      .ok sampleSession
    else .error (ascii "securecookie: the value is not valid")

/-- Its cookies are accepted for thirty days. -/
theorem CookieStore.sample_keepsFor : CookieStore.sample.KeepsFor cookieAge := by
  intro name values issued cookie now hencode hissued hnow
  simp only [CookieStore.sample] at hencode ⊢
  split at hencode
  · next hsession =>
    obtain rfl := Except.ok.inj hencode
    obtain ⟨rfl, hvalues, rfl⟩ := hsession
    rw [AList.ext hvalues]
    exact if_pos ⟨rfl, rfl, hissued, by omega⟩
  · exact nomatch hencode

/-- The other packages, on the requests below. -/
def Externals.sample : Externals where
  cwd := ascii "/"
  proto := .short
  rpmRead := sampleRead
  shellout _ tree := (([], [], none), tree)
  unique names := names
  urlPath _ := .ok (ascii "/kes")
  store := .sample
  jwt := .sample
  decodeInput body := .ok ⟨body, body⟩
  formPart _ := .error (ascii "no multipart boundary param in Content-Type")
  indexTemplate := none
  fileServer _ := ⟨404, none, .empty⟩

/-- A server with one repository, whose sessions live for a minute. -/
def World.sample : World where
  config :=
    { server := ⟨ascii "key", ascii "/", 60, ascii "http://localhost"⟩
      repositories := some
        { execReindex := ascii "genbasedir"
          baseRepoRootPath := ascii "/srv"
          auth := some ⟨ascii "dc=x", ascii "x", ascii "ldap", [ascii "admins"], 1⟩
          entries := (∅ : AList fun _ : ByteString => Option Repo).insert (ascii "kes")
            (some ⟨ascii "kes", ascii "kes", [], none⟩) } }
  tree := .empty

/-- A sign-in that the directory server accepts. -/
def sampleSignIn : Request where
  method := ascii "POST"
  path := ascii "/kes/sign-in"
  corsRequestMethod := []
  cookies := []
  body := ascii "ann"
  now := 0
  getUser _ _ _ := none
  faults := .none

/-- A request to rebuild the index, with the cookie of that sign-in. -/
def sampleReindex : Request :=
  { sampleSignIn with
    path := ascii "/kes/files/reindex"
    cookies := [(ascii "kes", ascii "cookie")] }

/-- The sample sign-in can be used. -/
theorem sample_usable : Usable .sample .sample sampleSignIn sampleReindex (ascii "kes")
    sampleSession (ascii "cookie") where
  fresh := rfl
  saved := by
    have hcalls : (serveHTTP .sample sampleSignIn .sample).calls =
        [.generateToken (ascii "kes") (ascii "ann") (ascii "ann")
          ⟨ascii "dc=x", ascii "x", ascii "ldap", [ascii "admins"], 1⟩ (ascii "token"),
          .saveSession (ascii "kes") sampleSession (ascii "cookie")] := by
      rfl
    rw [hcalls]
    exact List.mem_cons_of_mem _ (List.mem_singleton_self _)
  presented := rfl
  writes := by
    have hcalls : (serveHTTP .sample sampleReindex
        (serveHTTP .sample sampleSignIn .sample).world).calls =
        [.parseToken (ascii "kes") (ascii "token"), .fileReindexes (ascii "kes")] := by
      rfl
    rw [hcalls]
    exact ⟨_, List.mem_cons_of_mem _ (List.mem_singleton_self _), rfl⟩

/-- In the run of the two sample requests, the write follows the sign-in. -/
theorem sample_writes_after_signIn :
    ∃ token, SignedIn .sample sampleSignIn .sample (ascii "kes") token ∧
      .parseToken (ascii "kes") token ∈
        (outcomeAfter .sample .sample [sampleSignIn] sampleReindex).calls ∧
      sampleReindex.now - sampleSignIn.now ≤ tokenTTL := by
  have hcookies : Unforgeable .sample .sample [sampleSignIn, sampleReindex] :=
    unforgeable_of_saveSession CookieStore.sample_keepsFor rfl sample_usable.saved
      sample_usable.presented (Int.le_refl _) (by decide)
  obtain ⟨call, hcall, hwrites⟩ := sample_usable.writes
  obtain ⟨earlier, signIn, between, token, hbefore, hsigned, hparse, hnow⟩ :=
    (writes_after_signIn .sample .sample [sampleSignIn, sampleReindex] Jwt.sample_sound
      hcookies).1 [sampleSignIn] sampleReindex [] rfl call hcall (ascii "kes") hwrites
  cases earlier with
  | nil =>
    obtain ⟨rfl, -⟩ := List.cons.inj hbefore
    exact ⟨token, hsigned, hparse, hnow⟩
  | cons first rest => simp at hbefore

/-- The sample server, whose sessions live for a minute, writes on older sign-ins. -/
theorem sample_not_sessionLaw :
    0 < World.sample.config.server.sessionLife ∧
      ¬ ∀ requests, Unforgeable .sample .sample requests → SessionLaw .sample .sample requests := by
  refine ⟨by decide, ?_⟩
  intro hlaw
  obtain ⟨requests, hcookies, hnot⟩ := sample_usable.not_sessionLaw Jwt.sample_complete
    CookieStore.sample_keepsFor (by decide)
  exact hnot (hlaw requests hcookies)

/-- The two directions for the sample server. -/
theorem sample_sessionLaw_of_tokenTTL_le :
    ∃ requests, Unforgeable .sample .sample requests ∧ ¬ SessionLaw .sample .sample requests :=
  (sessionLaw_of_tokenTTL_le .sample .sample Jwt.sample_sound).2 Jwt.sample_complete
    CookieStore.sample_keepsFor ⟨_, _, _, _, _, sample_usable⟩ (by decide)

end RepoManager
