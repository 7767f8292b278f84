import RepoManager.Handler.Effects

/-!
# The replies that set a cookie

Only an accepted sign-in sets a cookie. The cookie holds a session with a new token for the
repository of the path, so its value says since when the user is signed in. What the other handlers
and the middlewares answer sets none; that the file server sets none is an assumption.
-/

open LexicalPath

namespace RepoManager

variable {env : Externals} {vars : Mux.Vars} {req : Request} {world : World}

/-- The reply sets this cookie. -/
def Reply.Sets (reply : Reply) (set : SetCookie) : Prop :=
  ∃ status body, reply = .response ⟨status, some set, body⟩

/-- Errors set no cookie. -/
theorem not_sets_respondError (status : Nat) (err : GoError) (set : SetCookie) :
    ¬ (respondError status err).Sets set := by
  rintro ⟨_, _, h⟩
  simp [respondError] at h

/-- Results of services set no cookie. -/
theorem not_sets_respondResult (result : Except GoError ByteString) (set : SetCookie) :
    ¬ (respondResult result).Sets set := by
  rintro ⟨_, _, h⟩
  cases result with
  | error err => simp [respondResult, respondError] at h
  | ok data => simp [respondResult, respondData] at h

/-- A panic sets no cookie. -/
theorem not_sets_panic (panic : Panic) (set : SetCookie) : ¬ (Reply.panic panic).Sets set := by
  rintro ⟨_, _, h⟩
  contradiction

/-- A handler that looks up the paths sets no cookie when what follows sets none. -/
theorem not_sets_withRepoVarPath {next : Config.RepoVarPath → Outcome} {set : SetCookie}
    (h : ∀ paths, ¬ (next paths).reply.Sets set) :
    ¬ (withRepoVarPath env vars world next).reply.Sets set := by
  unfold withRepoVarPath
  split
  · exact not_sets_panic _ set
  · exact h _

/-- A cookie value that a sign-in issued: it encodes a session with a token that was signed for the
repository at that moment. -/
structure Issued (env : Externals) (repoName : ByteString) (now : Int) (value : ByteString) :
    Prop where
  validName : env.store.validName repoName
  session : ∃ values token, env.store.encode repoName values now = .ok value ∧
    values.lookup repoName = some token ∧
    env.jwt.sign ⟨now + tokenTTL, now, repoName⟩ = .ok token

/-- A session that decodes is read as it was encoded. -/
def CookieStore.Sound (store : CookieStore) : Prop :=
  ∀ name values issued cookie now decoded, store.encode name values issued = .ok cookie →
    store.decode name cookie now = .ok decoded → decoded = values

/-- A session is read under a valid name. -/
theorem validName_of_sessionGet {store : CookieStore} {name : ByteString} {values : SessionValues}
    (h : sessionGet store req name = .ok values) : store.validName name := by
  unfold sessionGet at h
  split at h
  · next hvalid => exact hvalid
  · contradiction

/-- A sign-in that sets a cookie has status 200, and issued the value. -/
theorem issued_of_sets {set : SetCookie} (h : (signIn env vars req world).reply.Sets set) :
    (signIn env vars req world).reply = .response ⟨200, some set, .empty⟩ ∧
      Issued env (repoVar vars) req.now set.value := by
  generalize hout : signIn env vars req world = outcome at h ⊢
  unfold signIn at hout
  dsimp only at hout
  split at hout
  · subst hout
    exact absurd h (not_sets_respondError _ _ set)
  split at hout
  · subst hout
    exact absurd h (not_sets_respondError _ _ set)
  next values hvalues =>
  split at hout
  · subst hout
    exact absurd h (not_sets_panic _ set)
  · subst hout
    exact absurd h (not_sets_respondError _ _ set)
  split at hout
  · subst hout
    exact absurd h (not_sets_respondError _ _ set)
  next token htoken =>
  split at hout
  · subst hout
    exact absurd h (not_sets_respondError _ _ set)
  split at hout
  · subst hout
    exact absurd h (not_sets_respondError _ _ set)
  next cookie hcookie =>
  subst hout
  obtain ⟨status, body, hreply⟩ := h
  obtain ⟨-, hset, -⟩ := Response.mk.inj (Reply.response.inj hreply)
  obtain rfl := Option.some.inj hset
  have hsigned := ((AuthService.generateToken_eq_ok_iff ..).mp htoken).2
  exact ⟨rfl, validName_of_sessionGet hvalues, _, token, hcookie, AList.lookup_insert _, hsigned⟩

/-- The middlewares answer with the reply of the handler, or set no cookie. -/
theorem reply_wrap (handler : Handler) (middlewares : List Middleware) :
    (middlewares.foldr (Middleware.wrap env) handler vars req world).reply =
        (handler vars req world).reply ∨
      ∀ set, ¬ (middlewares.foldr (Middleware.wrap env) handler vars req world).reply.Sets set := by
  induction middlewares with
  | nil => exact Or.inl rfl
  | cons middleware rest ih =>
    cases middleware with
    | setRequestID => exact ih
    | logRequest => exact ih
    | setRequestChekRepo =>
      simp only [List.foldr_cons, Middleware.wrap, setRequestChekRepo]
      split
      · exact ih
      · right
        rintro set ⟨_, _, h⟩
        simp [Outcome.of, httpError] at h
    | authenticate =>
      simp only [List.foldr_cons, Middleware.wrap, authenticate]
      split
      · exact Or.inr (not_sets_respondError _ _)
      split
      · exact Or.inr (not_sets_respondError _ _)
      split
      · exact Or.inr (not_sets_respondError _ _)
      · exact ih

/-- Only a sign-in sets a cookie; the file server sets none. -/
theorem signIn_of_sets (hstatic : ∀ path, (env.fileServer path).setCookie = none)
    {set : SetCookie} (h : (serveHTTP env req world).reply.Sets set) :
    ∃ found, route req.method req.path = some found ∧
      (serveHTTP env req world).reply = (signIn env found.vars req world).reply ∧
      (signIn env found.vars req world).reply = .response ⟨200, some set, .empty⟩ ∧
      Issued env (repoVar found.vars) req.now set.value := by
  by_cases hpreflight : preflight req
  · rw [serveHTTP, if_pos hpreflight] at h
    obtain ⟨_, _, h⟩ := h
    simp [Outcome.of] at h
  by_cases hclean : Mux.cleanPath req.path = req.path
  swap
  · rw [serveHTTP, if_neg hpreflight, if_pos hclean] at h
    obtain ⟨_, _, h⟩ := h
    simp [Outcome.of] at h
  cases hfound : route req.method req.path with
  | none =>
    rw [serveHTTP, if_neg hpreflight, if_neg (not_not.mpr hclean), hfound] at h
    obtain ⟨_, _, h⟩ := h
    simp [Outcome.of] at h
  | some found =>
    rw [serveHTTP_of_route hpreflight hclean hfound] at h ⊢
    rcases @reply_wrap env found.vars req world (found.handler.handler env) found.middlewares with
      hsame | hnone
    swap
    · exact absurd h (hnone set)
    rw [hsame] at h ⊢
    refine ⟨found, rfl, ?_⟩
    cases hendpoint : found.handler with
    | signIn =>
      rw [hendpoint] at h
      exact ⟨rfl, issued_of_sets h⟩
    | handleFolders =>
      rw [hendpoint] at h
      exact absurd h (not_sets_withRepoVarPath fun _ => not_sets_respondResult _ _)
    | handleFiles =>
      rw [hendpoint] at h
      exact absurd h (not_sets_withRepoVarPath fun _ => not_sets_respondResult _ _)
    | handleFileDownloading =>
      rw [hendpoint] at h
      exact absurd h (not_sets_withRepoVarPath fun _ => not_sets_respondResult _ _)
    | handleFileInfo =>
      rw [hendpoint] at h
      exact absurd h (not_sets_withRepoVarPath fun _ => not_sets_respondResult _ _)
    | handleFileUploading =>
      rw [hendpoint] at h
      refine absurd h (not_sets_withRepoVarPath fun paths => ?_)
      dsimp only
      split
      · exact not_sets_respondError _ _ set
      · exact not_sets_respondResult _ _
    | handleFileReindexes =>
      rw [hendpoint] at h
      refine absurd h (not_sets_withRepoVarPath fun paths => ?_)
      dsimp only
      split
      · exact not_sets_panic _ set
      · exact not_sets_respondResult _ _
    | handleIndex =>
      rw [hendpoint] at h
      simp only [Endpoint.handler, handleIndex] at h
      split at h
      · exact absurd h (not_sets_respondError _ _ set)
      · split at h
        · exact absurd h (not_sets_panic _ set)
        · exact absurd h (not_sets_respondResult _ _)
    | fileServer =>
      rw [hendpoint] at h
      obtain ⟨_, _, h⟩ := h
      have hset := hstatic req.path
      simp only [Endpoint.handler, handleStatic, Outcome.of, Reply.response.injEq] at h
      rw [h] at hset
      contradiction

/-- No request changes the server section. -/
theorem server_serveHTTP : (serveHTTP env req world).world.config.server = world.config.server := by
  have hleaves := leaves_serveHTTP env req world
  generalize (serveHTTP env req world).world = after at hleaves ⊢
  cases hleaves with
  | unchanged => rfl
  | signIn called =>
    dsimp only [Config.afterCall]
    split
    · next hcall => exact Config.server_of_getRepoAuth hcall
    · rfl
  | upload => rfl
  | reindex => rfl

end RepoManager
