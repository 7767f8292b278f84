import RepoManager.Handler.Segments

/-!
# The calls of a request

What a call of a service or of the session store says about the request that made it: one
inversion lemma for each handler that makes calls, and for the middlewares around a handler. The
properties over whole runs use these lemmas and unfold no handler.
-/

open LexicalPath

namespace RepoManager

/-- A call that changes files of a repository. -/
def Call.WritesTo (repoName : ByteString) : Call → Prop
  | .fileUploading name => name = repoName
  | .fileReindexes name => name = repoName
  | _ => False

/-- `authenticate` admits a request with this token. -/
def Authenticated (env : Externals) (req : Request) (repoName token : ByteString) : Prop :=
  (∃ values, sessionGet env.store req repoName = .ok values ∧ values.lookup repoName = some token) ∧
    AuthService.parseToken env.jwt req.now token repoName = .ok ()

/-- An accepted sign-in that issued this token. -/
structure SignedIn (env : Externals) (req : Request) (world : World)
    (repoName token : ByteString) : Prop where
  routed : ∃ found, route req.method req.path = some found ∧ found.handler = .signIn ∧
    repoVar found.vars = repoName
  accepted : ∃ input conf config, env.decodeInput req.body = .ok input ∧
    world.config.getRepoAuth env.unique repoName = .ok (some conf, config) ∧
    req.getUser input.login input.password conf = none
  signed : env.jwt.sign ⟨req.now + tokenTTL, req.now, repoName⟩ = .ok token

section Handlers

variable {env : Externals} {vars : Mux.Vars} {req : Request} {world : World} {call : Call}

/-- No call comes from a panic of the lookups. -/
theorem calls_withRepoVarPath {next : Config.RepoVarPath → Outcome}
    (h : call ∈ (withRepoVarPath env vars world next).calls) :
    ∃ repo, world.config.getRepoVarPath env.cwd (repoVar vars) = .ok repo ∧
      call ∈ (next repo).calls := by
  unfold withRepoVarPath at h
  split at h
  · exact absurd h List.not_mem_nil
  · next repo hrepo => exact ⟨repo, hrepo, h⟩

/-- The calls of a sign-in: the token it issued, and the session it saved with that token. -/
theorem calls_signIn (h : call ∈ (signIn env vars req world).calls) :
    ∃ input conf config token, env.decodeInput req.body = .ok input ∧
      world.config.getRepoAuth env.unique (repoVar vars) = .ok (some conf, config) ∧
      AuthService.generateToken env.jwt req.getUser req.now input.login input.password
        (repoVar vars) conf = .ok token ∧
      (call = .generateToken (repoVar vars) input.login input.password conf token ∨
        ∃ values cookie, call = .saveSession (repoVar vars) values cookie ∧
          values.lookup (repoVar vars) = some token ∧
          env.store.encode (repoVar vars) values req.now = .ok cookie) := by
  unfold signIn at h
  simp only at h
  split at h
  · exact absurd h List.not_mem_nil
  next input hinput =>
  split at h
  · exact absurd h List.not_mem_nil
  next values hvalues =>
  split at h
  · exact absurd h List.not_mem_nil
  · exact absurd h List.not_mem_nil
  next conf config hconf =>
  split at h
  · exact absurd h List.not_mem_nil
  next token htoken =>
  refine ⟨input, conf, config, token, hinput, hconf, htoken, ?_⟩
  split at h
  · exact Or.inl (List.mem_singleton.mp h)
  split at h
  · exact Or.inl (List.mem_singleton.mp h)
  next cookie hcookie =>
  rcases List.mem_cons.mp h with rfl | hsave
  · exact Or.inl rfl
  · refine Or.inr ⟨_, cookie, List.mem_singleton.mp hsave, ?_, hcookie⟩
    exact AList.lookup_insert _

/-- The calls of the endpoints: sign-ins issue tokens and save sessions, the two guarded handlers
write, and the others call nothing that is recorded. -/
theorem calls_handler {endpoint : Endpoint}
    (h : call ∈ (endpoint.handler env vars req world).calls) :
    (endpoint = .signIn ∧ call ∈ (signIn env vars req world).calls) ∨
      ((endpoint = .handleFileUploading ∨ endpoint = .handleFileReindexes) ∧
        call.WritesTo (repoVar vars)) := by
  cases endpoint with
  | signIn => exact Or.inl ⟨rfl, h⟩
  | handleFileUploading =>
    refine Or.inr ⟨Or.inl rfl, ?_⟩
    obtain ⟨repo, -, hcall⟩ := calls_withRepoVarPath h
    simp only at hcall
    split at hcall
    · exact absurd hcall List.not_mem_nil
    · obtain rfl := List.mem_singleton.mp hcall
      rfl
  | handleFileReindexes =>
    refine Or.inr ⟨Or.inr rfl, ?_⟩
    obtain ⟨repo, -, hcall⟩ := calls_withRepoVarPath h
    simp only at hcall
    split at hcall
    · exact absurd hcall List.not_mem_nil
    · obtain rfl := List.mem_singleton.mp hcall
      rfl
  | handleFolders =>
    obtain ⟨repo, -, hcall⟩ := calls_withRepoVarPath h
    exact absurd hcall List.not_mem_nil
  | handleFiles =>
    obtain ⟨repo, -, hcall⟩ := calls_withRepoVarPath h
    exact absurd hcall List.not_mem_nil
  | handleFileDownloading =>
    obtain ⟨repo, -, hcall⟩ := calls_withRepoVarPath h
    exact absurd hcall List.not_mem_nil
  | handleFileInfo =>
    obtain ⟨repo, -, hcall⟩ := calls_withRepoVarPath h
    exact absurd hcall List.not_mem_nil
  | handleIndex =>
    simp only [Endpoint.handler, handleIndex] at h
    split at h
    · exact absurd h List.not_mem_nil
    · split at h
      · exact absurd h List.not_mem_nil
      · exact absurd h List.not_mem_nil
  | fileServer => exact absurd h List.not_mem_nil

/-- The names in a write are those of its repository. -/
theorem Call.WritesTo.unique {left right : ByteString} (hleft : call.WritesTo left)
    (hright : call.WritesTo right) : left = right := by
  cases call with
  | fileUploading name => exact hleft.symm.trans hright
  | fileReindexes name => exact hleft.symm.trans hright
  | generateToken => exact absurd hleft id
  | saveSession => exact absurd hleft id
  | parseToken => exact absurd hleft id

/-- Only the two guarded handlers write, and to the repository of the path. -/
theorem guarded_of_writesTo {endpoint : Endpoint} {repoName : ByteString}
    (h : call ∈ (endpoint.handler env vars req world).calls) (hwrites : call.WritesTo repoName) :
    (endpoint = .handleFileUploading ∨ endpoint = .handleFileReindexes) ∧
      repoVar vars = repoName := by
  rcases calls_handler h with ⟨-, hsignIn⟩ | ⟨hendpoint, hname⟩
  · obtain ⟨_, _, _, _, -, -, -, rfl | ⟨_, _, rfl, -⟩⟩ := calls_signIn hsignIn
    · exact absurd hwrites id
    · exact absurd hwrites id
  · exact ⟨hendpoint, hname.unique hwrites⟩

/-- The calls around a handler: a middleware records the token it admitted, and a handler inside
`authenticate` runs only with an admitted token. -/
theorem calls_wrap (handler : Handler) (middlewares : List Middleware)
    (h : call ∈ (middlewares.foldr (Middleware.wrap env) handler vars req world).calls) :
    (∃ token, call = .parseToken (repoVar vars) token ∧
        Authenticated env req (repoVar vars) token) ∨
      (call ∈ (handler vars req world).calls ∧
        (.authenticate ∈ middlewares → ∃ token, Authenticated env req (repoVar vars) token ∧
          .parseToken (repoVar vars) token ∈
            (middlewares.foldr (Middleware.wrap env) handler vars req world).calls)) := by
  induction middlewares with
  | nil => exact Or.inr ⟨h, fun hmem => absurd hmem List.not_mem_nil⟩
  | cons middleware rest ih =>
    cases middleware with
    | setRequestID =>
      refine (ih h).imp_right (And.imp_right fun hguard hmem => hguard ?_)
      exact (List.mem_cons.mp hmem).resolve_left nofun
    | logRequest =>
      refine (ih h).imp_right (And.imp_right fun hguard hmem => hguard ?_)
      exact (List.mem_cons.mp hmem).resolve_left nofun
    | setRequestChekRepo =>
      have hnext : (Middleware.setRequestChekRepo :: rest).foldr (Middleware.wrap env) handler
          vars req world = if world.config.isExistsrepo (repoVar vars) then
            rest.foldr (Middleware.wrap env) handler vars req world
          else .of (httpError 400 errNotExistRepository) world := rfl
      rw [hnext] at h ⊢
      split at h
      · next hexists =>
        rw [if_pos hexists]
        refine (ih h).imp_right (And.imp_right fun hguard hmem => hguard ?_)
        exact (List.mem_cons.mp hmem).resolve_left nofun
      · exact absurd h List.not_mem_nil
    | authenticate =>
      simp only [List.foldr_cons, Middleware.wrap, authenticate] at h ⊢
      split at h
      · exact absurd h List.not_mem_nil
      next values hvalues =>
      split at h
      · exact absurd h List.not_mem_nil
      next token htoken =>
      split at h
      · exact absurd h List.not_mem_nil
      next hparse =>
      have hadmitted : Authenticated env req (repoVar vars) token :=
        ⟨⟨values, hvalues, htoken⟩, hparse⟩
      rcases List.mem_append.mp h with hself | hnext
      · exact Or.inl ⟨token, List.mem_singleton.mp hself, hadmitted⟩
      · refine (ih hnext).imp_right fun hhandler => ⟨hhandler.1, fun _ => ⟨token, hadmitted, ?_⟩⟩
        exact List.mem_append_left _ (List.mem_singleton_self _)

end Handlers

/-! ## Whole requests -/

/-- The guarded handlers are reached only inside `authenticate`. -/
theorem authenticate_of_route {method path : ByteString} {found : Mux.Found Endpoint Middleware}
    (h : route method path = some found)
    (hwrites : found.handler = .handleFileUploading ∨ found.handler = .handleFileReindexes) :
    .authenticate ∈ found.middlewares := by
  refine Mux.dispatchFirst_guarded .authenticate
    (fun handler => handler = .handleFileUploading ∨ handler = .handleFileReindexes)
    _ _ _ _ ?_ found h hwrites
  simp [configureRouter, Mux.GuardedAll, Mux.Guarded]

section Requests

variable {env : Externals} {req : Request} {world : World} {call : Call}
  {repoName token : ByteString}

/-- A routed request runs its handler inside its middlewares. -/
theorem serveHTTP_of_route {found : Mux.Found Endpoint Middleware} (hpreflight : ¬ preflight req)
    (hclean : Mux.cleanPath req.path = req.path)
    (hfound : route req.method req.path = some found) :
    serveHTTP env req world = found.middlewares.foldr (Middleware.wrap env)
      (found.handler.handler env) found.vars req world := by
  rw [serveHTTP, if_neg hpreflight, if_neg (not_not.mpr hclean), hfound]

/-- A request that makes a call is routed. -/
theorem calls_serveHTTP (h : call ∈ (serveHTTP env req world).calls) :
    ∃ found, ¬ preflight req ∧ Mux.cleanPath req.path = req.path ∧
      route req.method req.path = some found ∧
      call ∈ (found.middlewares.foldr (Middleware.wrap env) (found.handler.handler env) found.vars
        req world).calls := by
  unfold serveHTTP at h
  split at h
  · exact absurd h List.not_mem_nil
  next hpreflight =>
  split at h
  · exact absurd h List.not_mem_nil
  next hclean =>
  split at h
  · exact absurd h List.not_mem_nil
  next found hfound => exact ⟨found, hpreflight, not_not.mp hclean, hfound, h⟩

/-- A recorded token was admitted. -/
theorem authenticated_of_parseToken
    (h : .parseToken repoName token ∈ (serveHTTP env req world).calls) :
    Authenticated env req repoName token := by
  obtain ⟨found, -, -, hfound, hwrap⟩ := calls_serveHTTP h
  rcases calls_wrap _ _ hwrap with ⟨other, hcall, hadmitted⟩ | ⟨hcall, -⟩
  · obtain ⟨rfl, rfl⟩ := Call.parseToken.inj hcall
    exact hadmitted
  · rcases calls_handler hcall with ⟨-, hsignIn⟩ | ⟨-, hwrites⟩
    · obtain ⟨_, _, _, _, -, -, -, hgenerate | ⟨_, _, hsave, -⟩⟩ := calls_signIn hsignIn
      · exact nomatch hgenerate
      · exact nomatch hsave
    · exact absurd hwrites id

/-- A request that writes was admitted, and its token is recorded. -/
theorem authenticated_of_writesTo (h : call ∈ (serveHTTP env req world).calls)
    (hwrites : call.WritesTo repoName) :
    ∃ token, Authenticated env req repoName token ∧
      .parseToken repoName token ∈ (serveHTTP env req world).calls := by
  obtain ⟨found, hpreflight, hclean, hfound, hwrap⟩ := calls_serveHTTP h
  rw [serveHTTP_of_route hpreflight hclean hfound]
  rcases calls_wrap _ _ hwrap with ⟨other, rfl, -⟩ | ⟨hcall, hguard⟩
  · exact absurd hwrites id
  · obtain ⟨hhandler, rfl⟩ := guarded_of_writesTo hcall hwrites
    exact hguard (authenticate_of_route hfound hhandler)

/-- A request that issues a token or saves a session is an accepted sign-in. -/
theorem signedIn_of_call (h : call ∈ (serveHTTP env req world).calls)
    (hcall : (∃ login password conf, call = .generateToken repoName login password conf token) ∨
      ∃ values cookie, call = .saveSession repoName values cookie ∧
        values.lookup repoName = some token) :
    SignedIn env req world repoName token := by
  obtain ⟨found, -, -, hfound, hwrap⟩ := calls_serveHTTP h
  rcases calls_wrap _ _ hwrap with ⟨other, rfl, -⟩ | ⟨hmem, -⟩
  · rcases hcall with ⟨_, _, _, hbad⟩ | ⟨_, _, hbad, -⟩
    · exact nomatch hbad
    · exact nomatch hbad
  · rcases calls_handler hmem with ⟨hhandler, hsignIn⟩ | ⟨-, hwrites⟩
    · obtain ⟨input, conf, config, issued, hinput, hconf, htoken, hkind⟩ := calls_signIn hsignIn
      obtain ⟨haccepted, hsigned⟩ := (AuthService.generateToken_eq_ok_iff ..).mp htoken
      have hsame : repoVar found.vars = repoName ∧ issued = token := by
        rcases hkind with rfl | ⟨values, cookie, rfl, hlookup, -⟩
        · rcases hcall with ⟨_, _, _, hgenerate⟩ | ⟨_, _, hsave, -⟩
          · obtain ⟨hname, -, -, -, hissued⟩ := Call.generateToken.inj hgenerate
            exact ⟨hname, hissued⟩
          · exact nomatch hsave
        · rcases hcall with ⟨_, _, _, hgenerate⟩ | ⟨_, _, hsave, hheld⟩
          · exact nomatch hgenerate
          · obtain ⟨hname, rfl, -⟩ := Call.saveSession.inj hsave
            rw [← hname, hlookup] at hheld
            exact ⟨hname, Option.some.inj hheld⟩
      obtain ⟨rfl, rfl⟩ := hsame
      exact ⟨⟨found, hfound, hhandler, rfl⟩, ⟨input, conf, config, hinput, hconf, haccepted⟩, hsigned⟩
    · rcases hcall with ⟨_, _, _, rfl⟩ | ⟨_, _, rfl, -⟩
      · exact absurd hwrites id
      · exact absurd hwrites id

/-- A saved session holds a token under its own name, and its cookie encodes it. -/
theorem session_of_saveSession {values : SessionValues} {cookie : ByteString}
    (h : .saveSession repoName values cookie ∈ (serveHTTP env req world).calls) :
    ∃ token, values.lookup repoName = some token ∧
      env.store.encode repoName values req.now = .ok cookie := by
  obtain ⟨found, -, -, hfound, hwrap⟩ := calls_serveHTTP h
  rcases calls_wrap _ _ hwrap with ⟨other, hbad, -⟩ | ⟨hmem, -⟩
  · exact nomatch hbad
  · rcases calls_handler hmem with ⟨-, hsignIn⟩ | ⟨-, hwrites⟩
    · obtain ⟨_, _, _, token, -, -, -, hbad | ⟨_, _, hsave, hlookup, hencode⟩⟩ :=
        calls_signIn hsignIn
      · exact nomatch hbad
      · obtain ⟨rfl, rfl, rfl⟩ := Call.saveSession.inj hsave
        exact ⟨token, hlookup, hencode⟩
    · exact absurd hwrites id

/-! ## The clock -/

/-- A handler that writes does so whatever the time. -/
theorem calls_handler_at {endpoint : Endpoint} {vars : Mux.Vars}
    (h : call ∈ (endpoint.handler env vars req world).calls) (hwrites : call.WritesTo repoName)
    (later : Int) : call ∈ (endpoint.handler env vars { req with now := later } world).calls := by
  cases endpoint with
  | signIn =>
    rcases (guarded_of_writesTo h hwrites).1 with hbad | hbad
    · exact nomatch hbad
    · exact nomatch hbad
  | handleFolders => exact h
  | handleFileReindexes => exact h
  | handleFileUploading => exact h
  | handleFiles => exact h
  | handleFileDownloading => exact h
  | handleFileInfo => exact h
  | handleIndex => exact h
  | fileServer => exact h

/-- The middlewares let a request that writes through at any time at which it is admitted. -/
theorem calls_wrap_at {endpoint : Endpoint} {vars : Mux.Vars} (middlewares : List Middleware)
    (h : call ∈ (middlewares.foldr (Middleware.wrap env) (endpoint.handler env) vars req
      world).calls)
    (hwrites : call.WritesTo repoName) {later : Int}
    (hadmitted : Authenticated env { req with now := later } (repoVar vars) token) :
    call ∈ (middlewares.foldr (Middleware.wrap env) (endpoint.handler env) vars
      { req with now := later } world).calls := by
  induction middlewares with
  | nil => exact calls_handler_at h hwrites later
  | cons middleware rest ih =>
    cases middleware with
    | setRequestID => exact ih h
    | logRequest => exact ih h
    | setRequestChekRepo =>
      simp only [List.foldr_cons, Middleware.wrap, setRequestChekRepo] at h ⊢
      split at h
      · next hexists =>
        rw [if_pos hexists]
        exact ih h
      · exact absurd h List.not_mem_nil
    | authenticate =>
      obtain ⟨⟨values, hvalues, htoken⟩, hparse⟩ := hadmitted
      simp only [List.foldr_cons, Middleware.wrap, authenticate, hvalues, htoken, hparse] at h ⊢
      split at h
      · exact absurd h List.not_mem_nil
      split at h
      · exact absurd h List.not_mem_nil
      split at h
      · exact absurd h List.not_mem_nil
      rcases List.mem_append.mp h with hself | hnext
      · obtain rfl := List.mem_singleton.mp hself
        exact absurd hwrites id
      · exact List.mem_append_right _ (ih hnext)

/-- A request that writes does so at any time at which it is admitted. -/
theorem writes_at (h : call ∈ (serveHTTP env req world).calls) (hwrites : call.WritesTo repoName)
    {later : Int} (hadmitted : Authenticated env { req with now := later } repoName token) :
    call ∈ (serveHTTP env { req with now := later } world).calls := by
  obtain ⟨found, hpreflight, hclean, hfound, hwrap⟩ := calls_serveHTTP h
  obtain rfl : repoVar found.vars = repoName := by
    rcases calls_wrap _ _ hwrap with ⟨other, rfl, -⟩ | ⟨hmem, -⟩
    · exact absurd hwrites id
    · exact (guarded_of_writesTo hmem hwrites).2
  rw [@serveHTTP_of_route env { req with now := later } world found hpreflight hclean hfound]
  exact calls_wrap_at _ hwrap hwrites hadmitted

end Requests

end RepoManager
