import RepoManager.Authorization

/-!
# Signing in with a left-over cookie

A sign-in writes its token into whatever session the cookies of the request give. Sessions that
the server saved hold nothing but a token, so that a readable cookie makes no difference. A cookie
that does not decode, because it is expired, altered or older than the session key, ends the
sign-in with status 500 before the credentials are looked at.

`signIn_same_iff` compares two sign-ins that differ in their cookies only, after any run of
requests.
-/

namespace RepoManager

/-- The server can read the session that a request carries for a repository, if it carries one. -/
def Readable (env : Externals) (req : Request) (repoName : ByteString) : Prop :=
  ∃ values, sessionGet env.store req repoName = .ok values

/-- A reply that refuses: with a status, or by closing the connection. -/
def Reply.RefusedWith (status : Option Nat) : Reply → Prop
  | .response answer => status = some answer.status ∧ answer.status ≠ 200
  | .panic _ => status = none

/-- From its issue and as long as its token lives, `authenticate` lets a request with this cookie
through. -/
def Admits (env : Externals) (repoName cookie : ByteString) (issued : Int) : Prop :=
  ∀ (next : Handler) (vars : Mux.Vars) (req : Request) (world : World),
    repoVar vars = repoName → req.cookies.lookup repoName = some cookie → issued ≤ req.now →
    req.now ≤ issued + tokenTTL →
    ∃ token, authenticate env next vars req world =
      .after [.parseToken repoName token] (next vars req world)

/-- A reply with status 200 that sets a session cookie which is admitted. -/
def Reply.SetsSession (env : Externals) (repoName : ByteString) (issued : Int) (reply : Reply) :
    Prop :=
  ∃ set body, reply = .response ⟨200, some set, body⟩ ∧ set.name = repoName ∧
    Admits env repoName set.value issued

/-- Two sign-ins are refused alike, or both of them are accepted. -/
def SameOutcome (env : Externals) (repoName : ByteString) (issued : Int) (left right : Reply) :
    Prop :=
  (∃ status, left.RefusedWith status ∧ right.RefusedWith status) ∨
    left.SetsSession env repoName issued ∧ right.SetsSession env repoName issued

/-- There is an authentication section for the repository: its own, or the default. -/
def Config.HasAuth (config : Config) (repoName : ByteString) : Prop :=
  ∃ repo repositories, config.entry repoName = .ok repo ∧ config.repositories = some repositories ∧
    (repo.auth.isSome ∨ repositories.auth.isSome)

/-- The credentials are accepted, but no cookie can be set: its path cannot be parsed, or the session
cannot be encoded. -/
def CannotSet (env : Externals) (repoName : ByteString) (req : Request) (world : World) : Prop :=
  ∃ input, env.decodeInput req.body = .ok input ∧
    ∃ conf config, world.config.getRepoAuth env.unique repoName = .ok (some conf, config) ∧
      ∃ token, AuthService.generateToken env.jwt req.getUser req.now input.login input.password
        repoName conf = .ok token ∧
        ((∃ err, config.getPathInURLPrefix env.urlPath repoName = .error err) ∨
          ∃ err, env.store.encode repoName (AList.singleton repoName token) req.now = .error err)

/-- Two sign-in requests with the same body, at the same time, which the directory server answers
alike. -/
structure Alike (left right : Request) : Prop where
  body : left.body = right.body
  now : left.now = right.now
  getUser : left.getUser = right.getUser

/-- A session into which a token is written holds nothing else afterwards. -/
def OwnSession (repoName : ByteString) (values : SessionValues) : Prop :=
  ∀ token, values.insert repoName token = AList.singleton repoName token

/-! ## The sessions that the server saves -/

section Sessions

variable {env : Externals} {world : World} {repoName cookie : ByteString} {values : SessionValues}

/-- A session that is saved is one that could be read, with a token written into it. -/
theorem written_of_saveSession {req : Request}
    (h : .saveSession repoName values cookie ∈ (serveHTTP env req world).calls) :
    ∃ old token, sessionGet env.store req repoName = .ok old ∧
      values = old.insert repoName token := by
  obtain ⟨found, -, -, -, hwrap⟩ := calls_serveHTTP h
  rcases calls_wrap _ _ hwrap with ⟨other, hbad, -⟩ | ⟨hmem, -⟩
  · exact nomatch hbad
  rcases calls_handler hmem with ⟨-, hsignIn⟩ | ⟨-, hwrites⟩
  · unfold signIn at hsignIn
    simp only at hsignIn
    split at hsignIn
    · exact absurd hsignIn List.not_mem_nil
    split at hsignIn
    · exact absurd hsignIn List.not_mem_nil
    next old hold =>
    split at hsignIn
    · exact absurd hsignIn List.not_mem_nil
    · exact absurd hsignIn List.not_mem_nil
    split at hsignIn
    · exact absurd hsignIn List.not_mem_nil
    next token htoken =>
    split at hsignIn
    · exact nomatch List.mem_singleton.mp hsignIn
    split at hsignIn
    · exact nomatch List.mem_singleton.mp hsignIn
    rcases List.mem_cons.mp hsignIn with hbad | hsave
    · exact nomatch hbad
    · obtain ⟨rfl, rfl, -⟩ := Call.saveSession.inj (List.mem_singleton.mp hsave)
      exact ⟨old, token, hold, rfl⟩
  · exact absurd hwrites id

/-- A new session and one that holds a token only are the repository's own. -/
theorem ownSession_empty (repoName : ByteString) : OwnSession repoName ∅ := fun _ => rfl

theorem ownSession_singleton (repoName token : ByteString) :
    OwnSession repoName (AList.singleton repoName token) :=
  fun _ => AList.insert_singleton_eq

/-- Every session that is read in a run holds a token of its repository at most. -/
theorem ownSession_of_readable {requests : List Request}
    (hcookies : Unforgeable env world requests) (before : List Request) (req : Request)
    (after : List Request) (hsplit : requests = before ++ req :: after)
    (hread : sessionGet env.store req repoName = .ok values) : OwnSession repoName values := by
  -- the session was saved by an earlier request, which read an earlier session
  induction hlength : before.length using Nat.strong_induction_on
    generalizing before req after values with
  | _ length ih =>
    have hdecoded := hread
    unfold sessionGet at hdecoded
    split at hdecoded
    · split at hdecoded
      · obtain rfl := Except.ok.inj hdecoded
        exact ownSession_empty repoName
      · next cookie hcookie =>
        obtain ⟨earlier, issuer, between, rfl, hsave⟩ :=
          hcookies before req after hsplit repoName cookie values hcookie hdecoded
        obtain ⟨old, token, hold, rfl⟩ := written_of_saveSession hsave
        have hown : OwnSession repoName old := by
          refine ih earlier.length ?_ earlier issuer (between ++ req :: after) ?_ hold rfl
          · rw [← hlength, List.length_append, List.length_cons]
            omega
          · rw [hsplit, List.append_assoc, List.cons_append]
        rw [hown token]
        exact ownSession_singleton repoName token
    · exact nomatch hdecoded

end Sessions

/-! ## What a sign-in answers -/

section Answers

variable {env : Externals} {world : World} {vars : Mux.Vars} {req : Request}
  {values : SessionValues}

/-- A configuration with an authentication section finds it, or follows a `nil` pointer to its
default. -/
theorem getRepoAuth_of_hasAuth {unique : List ByteString → List ByteString} {config after : Config}
    {repoName : ByteString} (h : config.HasAuth repoName) :
    config.getRepoAuth unique repoName ≠ .ok (none, after) := by
  obtain ⟨repo, repositories, hentry, hsome, hauth⟩ := h
  intro hnone
  rw [Config.getRepoAuth, hentry, hsome] at hnone
  cases hown : repo.auth with
  | none =>
    simp only [bind, Except.bind, deref, hown, pure, Except.pure, Except.ok.injEq,
      Prod.mk.injEq] at hnone
    rw [hown, hnone.1] at hauth
    exact hauth.elim nofun nofun
  | some auth =>
    simp only [bind, Except.bind, deref, hown] at hnone
    split at hnone
    · split at hnone
      · exact nomatch hnone
      · exact nomatch hnone
    · exact nomatch hnone

/-- A body that does not decode is refused before the cookies are looked at. -/
theorem signIn_undecoded {err : GoError} (h : env.decodeInput req.body = .error err) :
    (signIn env vars req world).reply = respondError 400 err := by
  simp only [signIn, h]
  rfl

/-- A cookie that cannot be read ends the sign-in. -/
theorem signIn_unreadable {input : SignInInput} (hinput : env.decodeInput req.body = .ok input)
    (h : ¬ Readable env req (repoVar vars)) :
    ∃ err, (signIn env vars req world).reply = respondError 500 err := by
  cases hget : sessionGet env.store req (repoVar vars) with
  | ok values => exact absurd ⟨values, hget⟩ h
  | error err =>
    refine ⟨err, ?_⟩
    simp only [signIn, hinput, hget]
    rfl

/-- Readable cookies make no difference. -/
theorem signIn_congr {other : Request} {others : SessionValues} (halike : Alike req other)
    (hread : sessionGet env.store req (repoVar vars) = .ok values)
    (hother : sessionGet env.store other (repoVar vars) = .ok others)
    (hvalues : OwnSession (repoVar vars) values) (hothers : OwnSession (repoVar vars) others) :
    (signIn env vars other world).reply = (signIn env vars req world).reply := by
  simp only [signIn, hread, hother, hvalues _, hothers _, halike.body, halike.now, halike.getUser]

/-- The cookie of an accepted sign-in is admitted. -/
theorem admits_of_signIn {token cookie : ByteString} {repoName : ByteString} {now : Int}
    (hcomplete : env.jwt.Complete) (hage : env.store.KeepsFor cookieAge)
    (hvalid : env.store.validName repoName)
    (hsigned : env.jwt.sign ⟨now + tokenTTL, now, repoName⟩ = .ok token)
    (hencode : env.store.encode repoName (AList.singleton repoName token) now = .ok cookie) :
    Admits env repoName cookie now := by
  rintro next vars req world rfl hcookie hstart hend
  have hdecode : env.store.decode (repoVar vars) cookie req.now =
      .ok (AList.singleton (repoVar vars) token) := by
    apply hage _ _ now cookie req.now hencode hstart
    simp only [cookieAge, tokenTTL] at hend ⊢
    omega
  have hread : sessionGet env.store req (repoVar vars) =
      .ok (AList.singleton (repoVar vars) token) := by
    simp only [sessionGet, hvalid, if_true, hcookie, hdecode]
  have hparse : AuthService.parseToken env.jwt req.now token (repoVar vars) = .ok () :=
    (AuthService.parseToken_eq_ok_iff ..).mpr
      ⟨_, hcomplete _ _ token req.now hsigned hstart hend, rfl⟩
  have htoken : (AList.singleton (repoVar vars) token : SessionValues).lookup (repoVar vars) =
      some token := by
    rw [← ownSession_empty (repoVar vars) token, AList.lookup_insert]
  refine ⟨token, ?_⟩
  simp only [authenticate, hread, htoken, hparse]

/-- An error is a refusal with its status. -/
theorem refusedWith_respondError {status : Nat} {err : GoError} (h : status ≠ 200) :
    (respondError status err).RefusedWith (some status) :=
  ⟨rfl, h⟩

/-- A readable sign-in is refused, or sets a cookie that is admitted. -/
theorem signIn_refused_or_sets (hcomplete : env.jwt.Complete) (hage : env.store.KeepsFor cookieAge)
    (hread : sessionGet env.store req (repoVar vars) = .ok values)
    (hown : OwnSession (repoVar vars) values) :
    (∃ status, (signIn env vars req world).reply.RefusedWith status) ∨
      (signIn env vars req world).reply.SetsSession env (repoVar vars) req.now := by
  have hvalid : env.store.validName (repoVar vars) := by
    unfold sessionGet at hread
    split at hread
    · next hvalid => exact hvalid
    · exact nomatch hread
  simp only [signIn, hread, hown _]
  split
  · exact .inl ⟨_, refusedWith_respondError (by decide : 400 ≠ 200)⟩
  next input hinput =>
  split
  · exact .inl ⟨none, rfl⟩
  · exact .inl ⟨_, refusedWith_respondError (by decide : 500 ≠ 200)⟩
  next conf config hconf =>
  split
  · exact .inl ⟨_, refusedWith_respondError (by decide : 401 ≠ 200)⟩
  next token htoken =>
  split
  · exact .inl ⟨_, refusedWith_respondError (by decide : 500 ≠ 200)⟩
  split
  · exact .inl ⟨_, refusedWith_respondError (by decide : 500 ≠ 200)⟩
  next cookie hcookie =>
  have hsigned := ((AuthService.generateToken_eq_ok_iff ..).mp htoken).2
  exact .inr ⟨_, _, rfl, rfl, admits_of_signIn hcomplete hage hvalid hsigned hcookie⟩

/-- A readable sign-in with a decoded body is refused with status 500 when its cookie cannot be
set. -/
theorem signIn_refused500_iff {input : SignInInput} (hinput : env.decodeInput req.body = .ok input)
    (hread : sessionGet env.store req (repoVar vars) = .ok values)
    (hown : OwnSession (repoVar vars) values) (hauth : world.config.HasAuth (repoVar vars)) :
    (signIn env vars req world).reply.RefusedWith (some 500) ↔
      CannotSet env (repoVar vars) req world := by
  simp only [CannotSet, hinput, Except.ok.injEq, exists_eq_left']
  cases hconf : world.config.getRepoAuth env.unique (repoVar vars) with
  | error panic =>
    simp only [signIn, hinput, hread, hconf]
    refine ⟨nofun, ?_⟩
    rintro ⟨conf, config, hbad, -⟩
    exact nomatch hbad
  | ok found =>
    obtain ⟨_ | conf, config⟩ := found
    · exact absurd hconf (getRepoAuth_of_hasAuth hauth)
    have hfound : ∀ P : Auth → Config → Prop, (∃ conf' config',
        (Except.ok (some conf, config) : Except Panic (Option Auth × Config)) =
          .ok (some conf', config') ∧ P conf' config') ↔ P conf config := by
      simp
    rw [hfound]
    cases htoken : AuthService.generateToken env.jwt req.getUser req.now input.login input.password
        (repoVar vars) conf with
    | error err =>
      simp only [signIn, hinput, hread, hconf, htoken]
      refine ⟨fun h => absurd h.1 (by decide), ?_⟩
      rintro ⟨token, hbad, -⟩
      exact nomatch hbad
    | ok token =>
      simp only [signIn, hinput, hread, hconf, htoken, hown _, Except.ok.injEq, exists_eq_left']
      cases config.getPathInURLPrefix env.urlPath (repoVar vars) with
      | error err => exact ⟨fun _ => .inl ⟨err, rfl⟩, fun _ => refusedWith_respondError (by decide)⟩
      | ok cookiePath =>
        cases env.store.encode (repoVar vars) (AList.singleton (repoVar vars) token) req.now with
        | error err => exact ⟨fun _ => .inr ⟨err, rfl⟩, fun _ => refusedWith_respondError (by decide)⟩
        | ok cookie =>
          refine ⟨fun h => absurd (Option.some.inj h.1) (by decide : 500 ≠ 200), ?_⟩
          rintro (⟨err, hbad⟩ | ⟨err, hbad⟩)
          · exact nomatch hbad
          · exact nomatch hbad

/-- A reply is the same as a refusal when it is that refusal. -/
theorem sameOutcome_refused_iff {repoName : ByteString} {issued : Int} {left right : Reply}
    {status : Option Nat} (h : right.RefusedWith status) :
    SameOutcome env repoName issued left right ↔ left.RefusedWith status := by
  constructor
  · rintro (⟨other, hleft, hright⟩ | ⟨-, set, body, rfl, -⟩)
    · cases right with
      | response answer => rwa [h.1, ← hright.1]
      | panic panic =>
        obtain rfl := h.trans hright.symm
        exact hleft
    · exact absurd rfl h.2
  · exact fun hleft => .inl ⟨status, hleft, h⟩

/-- The order of the replies makes no difference. -/
theorem sameOutcome_comm {repoName : ByteString} {issued : Int} {left right : Reply} :
    SameOutcome env repoName issued left right ↔ SameOutcome env repoName issued right left := by
  simp only [SameOutcome, and_comm]

/-- A readable sign-in and an unreadable one are the same when no cookie can be set. -/
theorem sameOutcome_unreadable_iff {other : Request} {input : SignInInput} {issued : Int}
    (hinput : env.decodeInput req.body = .ok input) (hbody : other.body = req.body)
    (hread : sessionGet env.store req (repoVar vars) = .ok values)
    (hown : OwnSession (repoVar vars) values) (hother : ¬ Readable env other (repoVar vars))
    (hauth : world.config.HasAuth (repoVar vars)) :
    SameOutcome env (repoVar vars) issued (signIn env vars req world).reply
        (signIn env vars other world).reply ↔
      CannotSet env (repoVar vars) req world := by
  rw [← hbody] at hinput
  obtain ⟨err, herr⟩ := @signIn_unreadable env world vars other input hinput hother
  rw [hbody] at hinput
  rw [herr, sameOutcome_refused_iff (refusedWith_respondError (by decide)),
    signIn_refused500_iff hinput hread hown hauth]

/-- Two sign-ins that differ in their cookies, by what can be read of these. -/
theorem sameOutcome_iff {left right : Request} (halike : Alike left right)
    (hcomplete : env.jwt.Complete) (hage : env.store.KeepsFor cookieAge)
    (hleft : ∀ values, sessionGet env.store left (repoVar vars) = .ok values →
      OwnSession (repoVar vars) values)
    (hright : ∀ values, sessionGet env.store right (repoVar vars) = .ok values →
      OwnSession (repoVar vars) values)
    (hauth : world.config.HasAuth (repoVar vars)) :
    SameOutcome env (repoVar vars) left.now (signIn env vars left world).reply
        (signIn env vars right world).reply ↔
      (∃ err, env.decodeInput left.body = .error err) ∨
        (Readable env left (repoVar vars) ↔ Readable env right (repoVar vars)) ∨
        CannotSet env (repoVar vars) left world := by
  cases hinput : env.decodeInput left.body with
  | error err =>
    refine ⟨fun _ => .inl ⟨err, rfl⟩, fun _ => ?_⟩
    rw [signIn_undecoded hinput, signIn_undecoded (halike.body ▸ hinput)]
    exact .inl ⟨_, refusedWith_respondError (by decide), refusedWith_respondError (by decide)⟩
  | ok input =>
    have hdecoded : ¬ ∃ err, (Except.ok input : Except GoError SignInInput) = .error err := by
      rintro ⟨err, hbad⟩
      exact nomatch hbad
    rw [or_iff_right hdecoded]
    by_cases hreadLeft : Readable env left (repoVar vars)
    · obtain ⟨values, hvalues⟩ := hreadLeft
      have hown := hleft values hvalues
      by_cases hreadRight : Readable env right (repoVar vars)
      · refine ⟨fun _ => .inl ⟨fun _ => hreadRight, fun _ => ⟨values, hvalues⟩⟩, fun _ => ?_⟩
        obtain ⟨others, hothers⟩ := hreadRight
        rw [signIn_congr halike hvalues hothers hown (hright others hothers)]
        rcases signIn_refused_or_sets hcomplete hage hvalues hown with ⟨status, hstatus⟩ | hset
        · exact .inl ⟨status, hstatus, hstatus⟩
        · exact .inr ⟨hset, hset⟩
      · rw [sameOutcome_unreadable_iff hinput halike.body.symm hvalues hown hreadRight hauth]
        exact (or_iff_right fun hiff => hreadRight (hiff.mp ⟨values, hvalues⟩)).symm
    · by_cases hreadRight : Readable env right (repoVar vars)
      · obtain ⟨others, hothers⟩ := hreadRight
        have hcannot : CannotSet env (repoVar vars) right world ↔
            CannotSet env (repoVar vars) left world := by
          simp only [CannotSet, halike.body, halike.now, halike.getUser]
        rw [sameOutcome_comm, sameOutcome_unreadable_iff (halike.body ▸ hinput) halike.body hothers
          (hright others hothers) hreadLeft hauth, hcannot]
        exact (or_iff_right fun hiff => hreadLeft (hiff.mpr ⟨others, hothers⟩)).symm
      · refine ⟨fun _ => .inl (iff_of_false hreadLeft hreadRight), fun _ => ?_⟩
        obtain ⟨err, herr⟩ := @signIn_unreadable env world vars left input hinput hreadLeft
        obtain ⟨err', herr'⟩ := @signIn_unreadable env world vars right input
          (halike.body ▸ hinput) hreadRight
        rw [herr, herr']
        exact .inl ⟨_, refusedWith_respondError (by decide), refusedWith_respondError (by decide)⟩

end Answers

/-- After any run of requests, two sign-ins that differ in their cookies have the same outcome
exactly when the server can read both sessions or neither, unless the body does not decode or no
cookie can be set. -/
theorem signIn_same_iff (env : Externals) (world : World) (before : List Request) (vars : Mux.Vars)
    (req : Request) (first second : List (ByteString × ByteString)) (hcomplete : env.jwt.Complete)
    (hage : env.store.KeepsFor cookieAge)
    (hfirst : Unforgeable env world (before ++ [{ req with cookies := first }]))
    (hsecond : Unforgeable env world (before ++ [{ req with cookies := second }]))
    (hauth : (serveAll env world before).config.HasAuth (repoVar vars)) :
    SameOutcome env (repoVar vars) req.now
        (signIn env vars { req with cookies := first } (serveAll env world before)).reply
        (signIn env vars { req with cookies := second } (serveAll env world before)).reply ↔
      (∃ err, env.decodeInput req.body = .error err) ∨
        (Readable env { req with cookies := first } (repoVar vars) ↔
          Readable env { req with cookies := second } (repoVar vars)) ∨
        CannotSet env (repoVar vars) req (serveAll env world before) := by
  have halike : Alike { req with cookies := first } { req with cookies := second } :=
    ⟨rfl, rfl, rfl⟩
  refine sameOutcome_iff halike hcomplete hage ?_ ?_ hauth
  · exact fun _ => ownSession_of_readable hfirst before _ [] rfl
  · exact fun _ => ownSession_of_readable hsecond before _ [] rfl

/-- The template variables of a sign-in to the sample repository. -/
def sampleVars : Mux.Vars := [(ascii "repoName", ascii "kes")]

/-- A cookie that was encoded under another session key. -/
def staleCookies : List (ByteString × ByteString) := [(ascii "kes", ascii "stale")]

/-- A run without the cookie that the sample server decodes. -/
theorem sample_unforgeable (requests : List Request)
    (h : ∀ req ∈ requests, ∀ name, req.cookies.lookup name ≠ some (ascii "cookie")) :
    Unforgeable .sample .sample requests := by
  rintro before req after rfl name cookie values hcookie hdecode
  change (if _ then _ else _) = _ at hdecode
  split at hdecode
  · next hvalid =>
    rw [hvalid.2.1] at hcookie
    exact absurd hcookie (h req List.mem_append_cons_self name)
  · exact nomatch hdecode

/-- The stale cookie is another one. -/
theorem lookup_staleCookies (name : ByteString) :
    staleCookies.lookup name ≠ some (ascii "cookie") := by
  rw [staleCookies, List.lookup_cons]
  split
  · decide
  · exact nofun

/-- The sample repository has an authentication section, the default. -/
theorem sample_hasAuth : World.sample.config.HasAuth (ascii "kes") :=
  ⟨_, _, rfl, rfl, .inr rfl⟩

/-- The credentials that a client without cookies signs in with are refused with a stale cookie,
although no cookie is forged and the repository can be signed in to. -/
theorem sample_not_same :
    Unforgeable .sample .sample [{ sampleSignIn with cookies := staleCookies }] ∧
      World.sample.config.HasAuth (ascii "kes") ∧
      (signIn .sample sampleVars { sampleSignIn with cookies := [] } .sample).reply.SetsSession
        .sample (ascii "kes") 0 ∧
      (signIn .sample sampleVars { sampleSignIn with cookies := staleCookies }
        .sample).reply.RefusedWith (some 500) ∧
      ¬ SameOutcome .sample (ascii "kes") 0
        (signIn .sample sampleVars { sampleSignIn with cookies := [] } .sample).reply
        (signIn .sample sampleVars { sampleSignIn with cookies := staleCookies } .sample).reply := by
  have hread : sessionGet CookieStore.sample { sampleSignIn with cookies := [] } (ascii "kes") =
      .ok ∅ := rfl
  have haccepted : (signIn .sample sampleVars { sampleSignIn with cookies := [] } .sample).reply =
      .response ⟨200, some ⟨ascii "kes", ascii "cookie", ascii "/kes", 60, false⟩, .empty⟩ := rfl
  have hrefused : (signIn .sample sampleVars { sampleSignIn with cookies := staleCookies }
      .sample).reply.RefusedWith (some 500) :=
    refusedWith_respondError (by decide)
  have hset := @signIn_refused_or_sets .sample .sample sampleVars
    { sampleSignIn with cookies := [] } ∅ Jwt.sample_complete CookieStore.sample_keepsFor hread
    (ownSession_empty _)
  refine ⟨?_, sample_hasAuth, hset.resolve_left ?_, hrefused, ?_⟩
  · apply sample_unforgeable
    intro req hreq
    obtain rfl := List.mem_singleton.mp hreq
    exact lookup_staleCookies
  · rw [haccepted]
    rintro ⟨status, -, hne⟩
    exact hne rfl
  · rw [sameOutcome_refused_iff hrefused, haccepted]
    exact fun h => h.2 rfl

/-- The credentials of a sign-in have the same outcome when its cookie is presented with them. -/
theorem sample_signIn_same_iff :
    let world := serveAll .sample .sample [sampleSignIn]
    let cookies := [(ascii "kes", ascii "cookie")]
    SameOutcome .sample (ascii "kes") 0
      (signIn .sample sampleVars { sampleSignIn with cookies := [] } world).reply
      (signIn .sample sampleVars { sampleSignIn with cookies := cookies } world).reply := by
  have hfirst : Unforgeable .sample .sample [sampleSignIn, { sampleSignIn with cookies := [] }] := by
    apply sample_unforgeable
    intro req hreq
    rcases List.mem_pair.mp hreq with rfl | rfl
    · exact fun _ => nofun
    · exact fun _ => nofun
  have hsecond := @unforgeable_of_saveSession .sample .sample sampleSignIn
    { sampleSignIn with cookies := [(ascii "kes", ascii "cookie")] } _ _ _
    CookieStore.sample_keepsFor rfl sample_usable.saved rfl 0 (Int.le_refl _) (by decide)
  apply (signIn_same_iff .sample .sample [sampleSignIn] sampleVars sampleSignIn []
    [(ascii "kes", ascii "cookie")] Jwt.sample_complete CookieStore.sample_keepsFor hfirst hsecond
    ?_).mpr
  · exact .inr (.inl (iff_of_true ⟨_, rfl⟩ ⟨sampleSession, rfl⟩))
  · exact ⟨_, _, rfl, rfl, .inr rfl⟩

end RepoManager
