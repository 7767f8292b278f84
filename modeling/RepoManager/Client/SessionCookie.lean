import RepoManager.Authorization
import RepoManager.Client.Webclient
import RepoManager.Config.EffectiveAuth
import RepoManager.Library.CookieJar
import RepoManager.Library.UrlParse

/-!
# The scope of the session cookie

`signIn` sets a cookie that is named after its repository, with the path of the URL prefix. The
page of a repository builds its URLs from that prefix, reads its cookie by name and removes it by
name and path. One user agent may hold the cookies of any set of repositories of a server.

The prefix is an absolute URL with a path that needs no escape, and a key has the same characters.
A cookie is then seen on the pages of its own repository only, and removed from there only.
-/

open LexicalPath UrlPath UrlParse CookieJar

namespace RepoManager

/-- The key of a repository, of unreserved characters. The router knows no empty one. -/
@[ext] structure RepoKey where
  name : Segment
  unreserved : ∀ byte ∈ name.val, isUnreserved byte
  deriving DecidableEq

/-- The name determines the key. -/
theorem RepoKey.name_inj {repo other : RepoKey} :
    repo.name.val = other.name.val ↔ repo = other := by
  rw [RepoKey.ext_iff, Segment.ext_iff]

/-- A server behind an absolute URL prefix that `url.Parse` accepts, as is checked when the
configuration is loaded. `secureCookies` is the option of a new session store. -/
structure CookieSite where
  config : Config
  origin : Origin
  path : ByteString
  urlPrefix_eq : config.server.urlPrefix = origin.bytes ++ path
  rooted : path = [] ∨ path.head? = some slash
  unescaped : Unescaped path
  parseAuthority : ByteString → Bool
  parseError : ByteString → GoError
  accepted : urlParse parseAuthority config.server.urlPrefix ≠ none
  secureCookies : Bool

namespace CookieSite

variable (site : CookieSite)

/-- `url.Parse`, and the field `Path`. -/
def urlPath (rawURL : ByteString) : Except GoError ByteString :=
  match urlParse site.parseAuthority rawURL with
  | some path => .ok path
  | none => .error (site.parseError rawURL)

/-- The index page of a repository, with the variables that `handleIndex` passes to whatever
template there is, and a path below it. -/
structure Page where
  repo : RepoKey
  vars : IndexVars
  rendered : ∃ (env : Externals) (mux : Mux.Vars) (req : Request) (world : World),
    env.urlPath = site.urlPath ∧ repoVar mux = repo.name.val ∧
      world.config.server = site.config.server ∧
      ∀ execute : IndexVars → Except GoError ByteString,
        (handleIndex { env with indexTemplate := some execute } mux req world).reply =
          respondResult (execute vars)
  path : ByteString
  rooted : path.head? = some slash
  unescaped : Unescaped path

/-- A sign-in to a repository, of which the user agent receives the response. -/
structure SignIn where
  repo : RepoKey
  requestPath : ByteString
  set : SetCookie
  now : Int
  sent : ∃ (env : Externals) (mux : Mux.Vars) (req : Request) (world : World),
    env.urlPath = site.urlPath ∧ repoVar mux = repo.name.val ∧
      world.config.server = site.config.server ∧
      (signIn env mux req world).reply = .response ⟨200, some set, .empty⟩

end CookieSite

/-- What the header of a cookie says; `MaxAge` of `net/http` is 0 for none and negative for 0. -/
def SetCookie.directive (set : SetCookie) (secure : Bool) : Directive where
  name := set.name
  value := set.value
  path := if set.path.head? = some slash then some set.path else none
  maxAge := if set.maxAge < 0 then some 0 else if set.maxAge = 0 then none else some set.maxAge
  secure := secure
  httpOnly := set.httpOnly

namespace CookieSite

variable {site : CookieSite}

/-- The URL of a page: `appUrl` with the rendered prefix. -/
def Page.url (page : site.Page) : ByteString := appUrl page.vars.urlPrefix page.path

/-- The path under which a user agent looks up the cookies of a page. -/
def Page.requestPath (page : site.Page) : ByteString := (pathname page.url).getD []

/-- `document.cookie` -/
def Page.documentCookie (page : site.Page) (jar : Jar) (now : Int) : ByteString :=
  cookieString jar now page.requestPath site.origin.secure false

/-- `isAuthCookie()` on a page. -/
def Page.isAuthCookie (page : site.Page) (jar : Jar) (now : Int) : Bool :=
  RepoManager.isAuthCookie page.vars.repoName (page.documentCookie jar now)

/-- `removeAuthCookie()` on a page. -/
def Page.removeAuthCookie (page : site.Page) (jar : Jar) (now : Int) : Jar :=
  match parseSetCookie (RepoManager.removeAuthCookie page.vars.repoName page.vars.cookiePath) with
  | some directive => receive jar now page.requestPath false directive
  | none => jar

/-- The directive of a sign-in. -/
def SignIn.directive (signIn : site.SignIn) : Directive := signIn.set.directive site.secureCookies

/-- The cookie of a sign-in. -/
def SignIn.cookie (signIn : site.SignIn) : Cookie :=
  signIn.directive.cookie signIn.now signIn.requestPath

/-- The user agent after some sign-ins. -/
def jarAfter (signIns : List site.SignIn) : Jar :=
  signIns.foldl
    (fun jar signIn => receive jar signIn.now signIn.requestPath true signIn.directive) []

/-! ## The paths of server and client -/

/-- The path of the prefix, without its last slashes. -/
def base (site : CookieSite) : ByteString := site.path.rdropWhile (· = slash)

/-- The path below which the URLs of a repository are. -/
def repoPath (site : CookieSite) (repo : RepoKey) : ByteString :=
  site.base ++ slash :: repo.name.val

/-- The rendered prefix: origin and path. -/
theorem getURLPrefix_repo (repo : RepoKey) :
    site.config.getURLPrefix repo.name.val = site.origin.bytes ++ site.repoPath repo := by
  obtain ⟨start, byte, hbytes, hbyte⟩ := site.origin.bytes_eq_concat
  rw [Config.getURLPrefix_eq, site.urlPrefix_eq, hbytes, List.append_assoc, List.append_assoc,
    List.singleton_append, rdropWhile_append_cons (by simpa using hbyte)]
  simp [repoPath, base]

/-- The path of a repository is rooted. -/
theorem head?_repoPath (repo : RepoKey) : (site.repoPath repo).head? = some slash := by
  cases hbase : site.base with
  | nil => simp [repoPath, hbase]
  | cons byte rest =>
    obtain ⟨after, hpath⟩ : site.base <+: site.path := List.rdropWhile_prefix _ _
    rw [hbase] at hpath
    rcases site.rooted with hempty | hrooted
    · simp [hempty] at hpath
    · rw [← hpath, List.cons_append, List.head?_cons] at hrooted
      rw [repoPath, hbase, List.cons_append, List.head?_cons, hrooted]

/-- The path of a repository needs no escape. -/
theorem unescaped_repoPath (repo : RepoKey) : Unescaped (site.repoPath repo) := by
  refine unescaped_append_slash.mpr ⟨site.unescaped.rdropWhile, ?_⟩
  refine ⟨fun byte hbyte => .inl (repo.unreserved byte hbyte), ?_⟩
  rw [components_of_slash_notMem repo.name.property.2.1]
  exact List.forall_mem_singleton.mpr repo.name.property.2.2

/-- The server finds the path of the repository in the prefix. -/
theorem getPathInURLPrefix_repo (repo : RepoKey) :
    site.config.getPathInURLPrefix site.urlPath repo.name.val = .ok (site.repoPath repo) := by
  have haccepted := site.accepted
  rw [site.urlPrefix_eq, urlParse_origin _ _ site.rooted site.unescaped] at haccepted
  rw [Config.getPathInURLPrefix, getURLPrefix_repo, urlPath,
    urlParse_origin _ _ (.inr (site.head?_repoPath repo)) (site.unescaped_repoPath repo)]
  split at haccepted
  · next h => rw [if_pos h]
  · exact absurd rfl haccepted

/-- The server section decides the path that is found for a repository. -/
theorem getPathInURLPrefix_congr {config : Config} (hserver : config.server = site.config.server)
    (repo : RepoKey) :
    config.getPathInURLPrefix site.urlPath repo.name.val = .ok (site.repoPath repo) := by
  rw [← getPathInURLPrefix_repo, Config.getPathInURLPrefix, Config.getPathInURLPrefix,
    Config.getURLPrefix, Config.getURLPrefix, hserver]

/-- The variables of a page. -/
theorem Page.vars_eq (page : site.Page) : page.vars =
    ⟨site.origin.bytes ++ site.repoPath page.repo, site.repoPath page.repo,
      page.repo.name.val⟩ := by
  obtain ⟨env, mux, req, world, hurl, hrepo, hserver, hreply⟩ := page.rendered
  have hprefix : world.config.getURLPrefix page.repo.name.val =
      site.origin.bytes ++ site.repoPath page.repo := by
    rw [← getURLPrefix_repo, Config.getURLPrefix, Config.getURLPrefix, hserver]
  have hrendered (field : IndexVars → ByteString) : field page.vars = field
      ⟨site.origin.bytes ++ site.repoPath page.repo, site.repoPath page.repo,
        page.repo.name.val⟩ := by
    have h := hreply fun vars => .ok (field vars)
    simp only [handleIndex, hurl, hrepo, getPathInURLPrefix_congr hserver, hprefix, Outcome.of,
      respondResult, respondData, Reply.response.injEq, Response.mk.injEq, Body.data.injEq,
      true_and] at h
    exact h.symm
  have hurlPrefix := hrendered IndexVars.urlPrefix
  have hcookiePath := hrendered IndexVars.cookiePath
  have hrepoName := hrendered IndexVars.repoName
  cases hvars : page.vars with
  | mk urlPrefix cookiePath repoName =>
    rw [hvars] at hurlPrefix hcookiePath hrepoName
    rw [IndexVars.mk.injEq]
    exact ⟨hurlPrefix, hcookiePath, hrepoName⟩

/-- A page is requested below the path of its repository. -/
theorem Page.pathname_url (page : site.Page) :
    ∃ rest, pathname page.url = some (site.repoPath page.repo ++ slash :: rest) := by
  obtain ⟨path, hpath, hunescaped⟩ := page.unescaped.tail page.rooted
  let rest := if path.getLast? = some slash then path.dropLast else path
  have hrest : Unescaped rest := by
    simp only [rest]
    split
    · next hlast => exact hunescaped.dropLast hlast
    · exact hunescaped
  have hhead : (site.origin.bytes ++ site.repoPath page.repo).head? ≠ some slash := by
    rw [Origin.bytes]
    cases site.origin.secure <;> exact fun heq => absurd (Option.some.inj heq) (by decide)
  have hlast : (site.origin.bytes ++ site.repoPath page.repo).getLast? ≠ some slash := by
    intro hlast
    rw [repoPath, ← List.append_assoc, List.getLast?_append_cons,
      List.getLast?_cons_of_ne_nil page.repo.name.property.1] at hlast
    exact page.repo.name.property.2.1 (List.mem_of_getLast? hlast)
  have hurl : page.url = site.origin.bytes ++ (site.repoPath page.repo ++ slash :: rest) := by
    rw [Page.url, page.vars_eq, hpath, appUrl_rooted hhead hlast, List.append_assoc]
  refine ⟨rest, ?_⟩
  rw [hurl]
  refine pathname_of_unescaped site.origin ?_ ?_
  · rw [List.head?_append, head?_repoPath]
    rfl
  · exact unescaped_append_slash.mpr ⟨site.unescaped_repoPath page.repo, hrest⟩

/-- The cookies of a page are looked up below the path of its repository. -/
theorem Page.requestPath_eq (page : site.Page) :
    ∃ rest, page.requestPath = site.repoPath page.repo ++ slash :: rest := by
  obtain ⟨rest, hrest⟩ := page.pathname_url
  exact ⟨rest, by rw [requestPath, hrest, Option.getD_some]⟩

/-- A page sees what has the path of its repository, and of no other. -/
theorem Page.pathMatch_repoPath_iff (page : site.Page) (repo : RepoKey) :
    pathMatch page.requestPath (site.repoPath repo) ↔ page.repo = repo := by
  obtain ⟨rest, hrest⟩ := page.requestPath_eq
  rw [hrest, repoPath, repoPath, List.append_assoc, List.cons_append,
    CookieJar.pathMatch_iff repo.name.property.2.1 repo.name.property.1
      page.repo.name.property.2.1, RepoKey.name_inj]
  exact eq_comm

/-- The path of a repository determines it. -/
theorem repoPath_injective : Function.Injective site.repoPath := by
  intro repo other h
  exact RepoKey.name_inj.mp (List.cons.inj (List.append_cancel_left h)).2

/-! ## The cookies of sign-ins -/

/-- The cookie that a sign-in sets. -/
theorem SignIn.set_eq (signIn : site.SignIn) : ∃ value, signIn.set =
    ⟨signIn.repo.name.val, value, site.repoPath signIn.repo, site.config.server.sessionLife,
      false⟩ := by
  obtain ⟨env, mux, req, world, hurl, hrepo, hserver, hreply⟩ := signIn.sent
  unfold RepoManager.signIn at hreply
  simp only [hrepo] at hreply
  split at hreply
  · exact nomatch hreply
  split at hreply
  · exact nomatch hreply
  split at hreply
  · exact nomatch hreply
  · exact nomatch hreply
  next conf config hconf =>
  have hconfig : config.server = site.config.server :=
    (Config.server_of_getRepoAuth hconf).trans hserver
  have hpath : config.getPathInURLPrefix env.urlPath signIn.repo.name.val =
      .ok (site.repoPath signIn.repo) :=
    hurl ▸ getPathInURLPrefix_congr hconfig signIn.repo
  split at hreply
  · exact nomatch hreply
  rw [hpath] at hreply
  simp only at hreply
  split at hreply
  · exact nomatch hreply
  next cookie hcookie =>
  refine ⟨cookie, ?_⟩
  simp only [Outcome.after, Outcome.of, Reply.response.injEq, Response.mk.injEq, Option.some.injEq]
    at hreply
  rw [← hreply.2.1, hconfig]

/-- The cookie of a sign-in: its name and path, and when scripts see it. -/
theorem SignIn.cookie_eq (signIn : site.SignIn) :
    signIn.cookie.name = signIn.repo.name.val ∧ signIn.cookie.path = site.repoPath signIn.repo ∧
      signIn.cookie.secureOnly = site.secureCookies ∧ signIn.cookie.httpOnly = false := by
  obtain ⟨value, hset⟩ := signIn.set_eq
  simp only [cookie, directive, Directive.cookie, SetCookie.directive, hset, head?_repoPath,
    if_true, Option.getD_some, and_self]

/-- The last sign-in to a repository. -/
def lastSignIn (signIns : List site.SignIn) (repo : RepoKey) : Option site.SignIn :=
  signIns.reverse.find? (·.repo = repo)

/-- One more sign-in. -/
theorem lastSignIn_concat (signIns : List site.SignIn) (signIn : site.SignIn) (repo : RepoKey) :
    lastSignIn (signIns ++ [signIn]) repo =
      if signIn.repo = repo then some signIn else lastSignIn signIns repo := by
  rw [lastSignIn, List.reverse_append, List.reverse_singleton, List.singleton_append,
    List.find?_cons]
  by_cases h : signIn.repo = repo <;> simp [h, lastSignIn]

/-- The last sign-in to a repository is one to it. -/
theorem repo_of_lastSignIn {signIns : List site.SignIn} {repo : RepoKey} {signIn : site.SignIn}
    (h : lastSignIn signIns repo = some signIn) : signIn.repo = repo := by
  simpa using List.find?_some h

/-- The cookies of two sign-ins are the same one when their repositories are. -/
theorem SignIn.same_iff (signIn other : site.SignIn) :
    signIn.cookie.same other.cookie ↔ signIn.repo = other.repo := by
  simp only [Cookie.same, signIn.cookie_eq, other.cookie_eq, decide_eq_true_eq,
    repoPath_injective.eq_iff, RepoKey.name_inj, and_self]

/-- One more sign-in replaces the cookie of its repository and drops what has expired. -/
theorem mem_jarAfter_concat {signIns : List site.SignIn} {signIn : site.SignIn} {cookie : Cookie} :
    cookie ∈ jarAfter (signIns ++ [signIn]) ↔
      (cookie = signIn.cookie ∨ cookie ∈ jarAfter signIns ∧ ¬ cookie.same signIn.cookie) ∧
        ¬ cookie.expired signIn.now := by
  rw [jarAfter, List.foldl_concat, ← jarAfter, mem_receive_iff (.inl rfl)]
  rfl

/-- What a user agent holds is the cookie of the last sign-in to each repository, until it
expires. -/
theorem mem_jarAfter_iff {signIns : List site.SignIn} {now : Int}
    (h : ∀ signIn ∈ signIns, signIn.now ≤ now) {cookie : Cookie} (halive : ¬ cookie.expired now) :
    cookie ∈ jarAfter signIns ↔
      ∃ repo signIn, lastSignIn signIns repo = some signIn ∧ cookie = signIn.cookie := by
  induction signIns using List.reverseRecOn with
  | nil => simp [jarAfter, lastSignIn]
  | append_singleton signIns signIn ih =>
    rw [List.forall_mem_append, List.forall_mem_singleton] at h
    have hfresh : ¬ cookie.expired signIn.now := fun hexpired =>
      halive (Cookie.expired_mono hexpired h.2)
    rw [mem_jarAfter_concat, ih h.1]
    constructor
    · rintro ⟨rfl | ⟨⟨repo, last, hlast, rfl⟩, hdiffers⟩, -⟩
      · exact ⟨signIn.repo, signIn, by rw [lastSignIn_concat, if_pos rfl], rfl⟩
      · rw [last.same_iff, repo_of_lastSignIn hlast] at hdiffers
        exact ⟨repo, last, by rw [lastSignIn_concat, if_neg (Ne.symm hdiffers), hlast], rfl⟩
    · rintro ⟨repo, last, hlast, rfl⟩
      refine ⟨?_, hfresh⟩
      rw [lastSignIn_concat] at hlast
      split at hlast
      · exact .inl (congrArg SignIn.cookie (Option.some.inj hlast).symm)
      · next hrepo =>
        refine .inr ⟨⟨repo, last, hlast, rfl⟩, ?_⟩
        rw [last.same_iff, repo_of_lastSignIn hlast]
        exact Ne.symm hrepo

/-- Every cookie of the jar is the session cookie of a repository. -/
def Holds (site : CookieSite) (jar : Jar) : Prop :=
  ∀ cookie ∈ jar, ∃ repo : RepoKey, cookie.name = repo.name.val ∧
    cookie.path = site.repoPath repo ∧ cookie.httpOnly = false

/-- Sign-ins put session cookies into a jar. -/
theorem holds_jarAfter (signIns : List site.SignIn) : site.Holds (jarAfter signIns) := by
  induction signIns using List.reverseRecOn with
  | nil => exact fun _ h => absurd h List.not_mem_nil
  | append_singleton signIns signIn ih =>
    intro cookie hcookie
    rw [mem_jarAfter_concat] at hcookie
    rcases hcookie.1 with rfl | ⟨hold, -⟩
    · exact ⟨signIn.repo, signIn.cookie_eq.1, signIn.cookie_eq.2.1, signIn.cookie_eq.2.2.2⟩
    · exact ih cookie hold

/-! ## What a page reads and removes -/

/-- The bytes of a repository key and its path have no part in a set-cookie-string. -/
theorem notMem_repoPath (repo : RepoKey) : ∀ byte ∈ repo.name.val ++ site.repoPath repo,
    byte ≠ semicolon ∧ byte ≠ equals ∧ isWsp byte = false := by
  have hplain (byte : UInt8) : isUnreserved byte ∨ byte = slash →
      byte ≠ semicolon ∧ byte ≠ equals ∧ isWsp byte = false := by
    apply forall_byte byte
    decide +kernel
  intro byte hbyte
  apply hplain byte
  rcases List.mem_append.mp hbyte with hbyte | hbyte
  · exact .inl (repo.unreserved byte hbyte)
  · exact (site.unescaped_repoPath repo).bytes byte hbyte

/-- The assignment of `removeAuthCookie`, as a user agent parses it. -/
theorem parseSetCookie_removeAuthCookie (repo : RepoKey) :
    parseSetCookie (removeAuthCookie repo.name.val (site.repoPath repo)) =
      some ⟨repo.name.val, [], some (site.repoPath repo), some 0, true, false⟩ := by
  obtain ⟨hname, hpath⟩ := List.forall_mem_append.mp (@notMem_repoPath site repo)
  have hpieces : removeAuthCookie repo.name.val (site.repoPath repo) =
      [semicolon].intercalate [repo.name.val ++ [equals], ascii "SameSite=None", ascii "Secure",
        ascii "Max-Age=0", ascii "path=" ++ site.repoPath repo] := by
    simp only [removeAuthCookie, List.intercalate_cons_cons, List.intercalate_singleton,
      List.append_assoc]
    rfl
  have hsplit : (removeAuthCookie repo.name.val (site.repoPath repo)).splitOn semicolon =
      [repo.name.val ++ [equals], ascii "SameSite=None", ascii "Secure", ascii "Max-Age=0",
        ascii "path=" ++ site.repoPath repo] := by
    rw [hpieces]
    refine List.splitOn_intercalate semicolon ?_ (by simp)
    simp only [List.forall_mem_cons, List.mem_append, not_or]
    refine ⟨⟨fun hmem => (hname _ hmem).1 rfl, by decide⟩, by decide, by decide, by decide,
      ⟨by decide, fun hmem => (hpath _ hmem).1 rfl⟩, nofun⟩
  have hpair : CookieJar.cut (repo.name.val ++ [equals]) = (repo.name.val, []) := by
    have hequals : equals ∉ repo.name.val := fun hmem => (hname _ hmem).2.1 rfl
    rw [CookieJar.cut, takeWhile_ne_append hequals, dropWhile_ne_append hequals, List.tail_cons]
  have htrimName := trimWsp_of_not_isWsp fun byte hbyte => (hname byte hbyte).2.2
  have htrimPath := trimWsp_of_not_isWsp fun byte hbyte => (hpath byte hbyte).2.2
  rw [parseSetCookie, hsplit]
  simp only [hpair, htrimName]
  rw [if_neg (by simp [repo.name.property.1])]
  change some (applyAttribute ⟨repo.name.val, [], none, some 0, true, false⟩
    (ascii "path=" ++ site.repoPath repo)) = _
  have hcut : CookieJar.cut (ascii "path=" ++ site.repoPath repo) =
      (ascii "path", site.repoPath repo) := rfl
  simp only [applyAttribute, hcut, htrimPath, site.head?_repoPath]
  rfl

/-- What a page sees of session cookies. -/
theorem Page.visible_iff (page : site.Page) {cookie : Cookie} {now : Int} {repo : RepoKey}
    (hname : cookie.name = repo.name.val) (hpath : cookie.path = site.repoPath repo)
    (hscripts : cookie.httpOnly = false) :
    cookie.visible now page.requestPath site.origin.secure false ↔
      cookie.name = page.repo.name.val ∧ ¬ cookie.expired now ∧
        (cookie.secureOnly → site.origin.secure) := by
  have hrepo : pathMatch page.requestPath (site.repoPath repo) ↔
      repo.name.val = page.repo.name.val := by
    rw [page.pathMatch_repoPath_iff, RepoKey.name_inj]
    exact eq_comm
  simp only [Cookie.visible, hpath, hscripts, hname, Bool.and_eq_true, hrepo]
  cases cookie.expired now <;> cases cookie.secureOnly <;> simp

/-- A page reports the session cookie of its repository. -/
theorem Page.isAuthCookie_iff (page : site.Page) {jar : Jar} (hjar : site.Holds jar) (now : Int) :
    page.isAuthCookie jar now ↔ ∃ cookie ∈ jar, cookie.name = page.repo.name.val ∧
      ¬ cookie.expired now ∧ (cookie.secureOnly → site.origin.secure) := by
  have hvisible : ∀ cookie ∈ jar,
      (cookie.visible now page.requestPath site.origin.secure false ↔
        cookie.name = page.repo.name.val ∧ ¬ cookie.expired now ∧
          (cookie.secureOnly → site.origin.secure)) := by
    intro cookie hcookie
    obtain ⟨repo, hname, hpath, hscripts⟩ := hjar cookie hcookie
    exact page.visible_iff hname hpath hscripts
  have hrepoName : page.vars.repoName = page.repo.name.val := by rw [page.vars_eq]
  rw [isAuthCookie, documentCookie, hrepoName]
  constructor
  · intro h
    by_contra hnone
    have hunseen : ∀ cookie ∈ jar,
        ¬ cookie.visible now page.requestPath site.origin.secure false :=
      fun cookie hcookie hseen => hnone ⟨cookie, hcookie, (hvisible cookie hcookie).mp hseen⟩
    rw [cookieString_of_not_visible hunseen, isAuthCookie_nil] at h
    exact nomatch h
  · rintro ⟨cookie, hcookie, hreported⟩
    obtain ⟨rest, hrest⟩ := exists_cookieString
      ⟨cookie, hcookie, (hvisible cookie hcookie).mpr hreported⟩
      fun other hother hseen => ((hvisible other hother).mp hseen).1
    rw [hrest]
    exact isAuthCookie_append page.repo.unreserved page.repo.name.property.1 rest

/-- A page removes the session cookie of its repository. -/
theorem Page.mem_removeAuthCookie_iff (page : site.Page) {jar : Jar} (hjar : site.Holds jar)
    (now : Int) {cookie : Cookie} :
    cookie ∈ page.removeAuthCookie jar now ↔
      cookie ∈ jar ∧ cookie.name ≠ page.repo.name.val ∧ ¬ cookie.expired now := by
  have hallowed : ∀ old ∈ jar, old.httpOnly = false := by
    intro old hold
    obtain ⟨repo, -, -, hscripts⟩ := hjar old hold
    exact hscripts
  rw [removeAuthCookie, page.vars_eq]
  simp only [parseSetCookie_removeAuthCookie]
  rw [mem_receive_iff (.inr ⟨rfl, hallowed⟩)]
  constructor
  · rintro ⟨rfl | ⟨hcookie, hdiffers⟩, halive⟩
    · exact absurd rfl halive
    · obtain ⟨repo, hname, hpath, -⟩ := hjar cookie hcookie
      refine ⟨hcookie, fun heq => hdiffers ?_, halive⟩
      have hrepo : repo = page.repo := RepoKey.name_inj.mp (hname.symm.trans heq)
      simp [Cookie.same, Directive.cookie, heq, hpath, hrepo]
  · rintro ⟨hcookie, hdiffers, halive⟩
    refine ⟨.inr ⟨hcookie, fun hsame => hdiffers ?_⟩, halive⟩
    simp only [Cookie.same, decide_eq_true_eq] at hsame
    exact hsame.1

/-- What is left after a removal are session cookies. -/
theorem Page.holds_removeAuthCookie (page : site.Page) {jar : Jar} (hjar : site.Holds jar)
    (now : Int) : site.Holds (page.removeAuthCookie jar now) :=
  fun cookie hcookie => hjar cookie ((page.mem_removeAuthCookie_iff hjar now).mp hcookie).1

/-- A page reports the last sign-in to its repository, until that expires. -/
theorem Page.isAuthCookie_jarAfter_iff (page : site.Page) {signIns : List site.SignIn} {now : Int}
    (h : ∀ signIn ∈ signIns, signIn.now ≤ now) :
    page.isAuthCookie (jarAfter signIns) now ↔
      ∃ signIn, lastSignIn signIns page.repo = some signIn ∧ ¬ signIn.cookie.expired now ∧
        (site.secureCookies → site.origin.secure) := by
  rw [page.isAuthCookie_iff (holds_jarAfter signIns)]
  constructor
  · rintro ⟨cookie, hcookie, hname, halive, hsecure⟩
    obtain ⟨repo, signIn, hlast, rfl⟩ := (mem_jarAfter_iff h halive).mp hcookie
    have hrepo : page.repo = repo := by
      rw [← repo_of_lastSignIn hlast]
      exact RepoKey.name_inj.mp (hname.symm.trans signIn.cookie_eq.1)
    rw [signIn.cookie_eq.2.2.1] at hsecure
    exact ⟨signIn, hrepo ▸ hlast, halive, hsecure⟩
  · rintro ⟨signIn, hlast, halive, hsecure⟩
    refine ⟨signIn.cookie, (mem_jarAfter_iff h halive).mpr ⟨_, signIn, hlast, rfl⟩, ?_, halive, ?_⟩
    · rw [signIn.cookie_eq.1, repo_of_lastSignIn hlast]
    · rwa [signIn.cookie_eq.2.2.1]

/-- After a removal every other page reports what it did. -/
theorem Page.isAuthCookie_removeAuthCookie_iff (page other : site.Page) {jar : Jar}
    (hjar : site.Holds jar) {now later : Int} (hlater : now ≤ later) :
    other.isAuthCookie (page.removeAuthCookie jar now) later ↔
      other.repo ≠ page.repo ∧ other.isAuthCookie jar later := by
  rw [other.isAuthCookie_iff (page.holds_removeAuthCookie hjar now),
    other.isAuthCookie_iff hjar]
  rw [Ne, ← RepoKey.name_inj]
  constructor
  · rintro ⟨cookie, hcookie, hname, halive, hsecure⟩
    obtain ⟨hmem, hdiffers, -⟩ := (page.mem_removeAuthCookie_iff hjar now).mp hcookie
    exact ⟨hname ▸ hdiffers, cookie, hmem, hname, halive, hsecure⟩
  · rintro ⟨hdiffers, cookie, hmem, hname, halive, hsecure⟩
    refine ⟨cookie, (page.mem_removeAuthCookie_iff hjar now).mpr ⟨hmem, hname ▸ hdiffers, ?_⟩,
      hname, halive, hsecure⟩
    exact fun hexpired => halive (Cookie.expired_mono hexpired hlater)

end CookieSite

open CookieSite in
/-- Server and client agree on the scope of the session cookie. It has the path that the server
finds in the URL prefix, which the pages of its repository are below and no others. Removing it
on a page takes away the cookie of that repository and nothing else that is alive; the page then
reports none, and every other page what it reported before: the last sign-in to its repository,
until that expires. A secure cookie is never reported to a page without TLS. -/
theorem sessionCookie_scope (site : CookieSite) :
    (∀ repo : RepoKey, ∃ cookiePath,
      site.config.getPathInURLPrefix site.urlPath repo.name.val = .ok cookiePath ∧
      (∀ signIn : site.SignIn, signIn.repo = repo →
        signIn.cookie.name = repo.name.val ∧ signIn.cookie.path = cookiePath) ∧
      ∀ page : site.Page, ∃ path, pathname page.url = some path ∧
        (pathMatch path cookiePath ↔ page.repo = repo)) ∧
    ∀ (signIns : List site.SignIn) (page : site.Page) (now : Int),
      (∀ signIn ∈ signIns, signIn.now ≤ now) →
      (∀ cookie, cookie ∈ page.removeAuthCookie (jarAfter signIns) now ↔
        cookie ∈ jarAfter signIns ∧ cookie.name ≠ page.repo.name.val ∧ ¬ cookie.expired now) ∧
      ∀ (other : site.Page) (later : Int), now ≤ later →
        (other.isAuthCookie (jarAfter signIns) later ↔
          ∃ signIn, lastSignIn signIns other.repo = some signIn ∧
            ¬ signIn.cookie.expired later ∧ (site.secureCookies → site.origin.secure)) ∧
        (other.isAuthCookie (page.removeAuthCookie (jarAfter signIns) now) later ↔
          other.repo ≠ page.repo ∧ other.isAuthCookie (jarAfter signIns) later) := by
  refine ⟨fun repo => ⟨site.repoPath repo, getPathInURLPrefix_repo repo, ?_, ?_⟩, ?_⟩
  · rintro signIn rfl
    exact ⟨signIn.cookie_eq.1, signIn.cookie_eq.2.1⟩
  · intro page
    obtain ⟨rest, hrest⟩ := page.pathname_url
    have hmatch := page.pathMatch_repoPath_iff repo
    rw [Page.requestPath, hrest, Option.getD_some] at hmatch
    exact ⟨_, hrest, hmatch⟩
  · intro signIns page now hnow
    have hjar := holds_jarAfter signIns
    refine ⟨fun cookie => page.mem_removeAuthCookie_iff hjar now, fun other later hlater => ?_⟩
    have hbefore : ∀ signIn ∈ signIns, signIn.now ≤ later :=
      fun signIn hmem => (hnow signIn hmem).trans hlater
    exact ⟨other.isAuthCookie_jarAfter_iff hbefore,
      page.isAuthCookie_removeAuthCookie_iff other hjar hlater⟩

namespace CookieSite

/-- A server behind a prefix with slashes at its end, with TLS or without. -/
def sampleAt (tls : Bool) : CookieSite where
  config :=
    { World.sample.config with
      server := ⟨ascii "key", ascii "/", 60,
        ascii (if tls then "https://example.loc/rpm//" else "http://example.loc/rpm//")⟩ }
  origin := ⟨tls, ascii "example.loc", by decide, by decide +kernel⟩
  path := ascii "/rpm//"
  urlPrefix_eq := by cases tls <;> rfl
  rooted := .inr rfl
  unescaped := ⟨by decide +kernel, by decide +kernel⟩
  parseAuthority _ := true
  parseError _ := ascii "parse"
  accepted := by cases tls <;> decide +kernel
  secureCookies := true

/-- The sample server with TLS. -/
abbrev sample : CookieSite := sampleAt true

/-- A repository, and one of which the name begins with that name. -/
def sampleRepo (more : Bool) : RepoKey where
  name := ⟨ascii (if more then "kes-2" else "kes"), by cases more <;> decide⟩
  unreserved := by cases more <;> decide +kernel

/-- The packages of a sample server. -/
def sampleExternals (tls : Bool) : Externals :=
  { Externals.sample with
    urlPath := (sampleAt tls).urlPath
    store := ⟨fun _ => true, fun name _ _ => .ok name, fun _ _ _ => .ok ∅⟩
    jwt := ⟨fun _ => .ok (ascii "token"), fun _ _ => .error (ascii "token")⟩ }

/-- The state of a sample server, with both repositories. -/
def sampleWorldAt (tls : Bool) : World where
  config :=
    { (sampleAt tls).config with
      repositories := World.sample.config.repositories.map fun repositories =>
        { repositories with
          entries := repositories.entries.insert (ascii "kes-2")
            (some ⟨ascii "kes-2", ascii "kes-2", [], none⟩) } }
  tree := .empty

/-- The state of the server with TLS. -/
abbrev sampleWorld : World := sampleWorldAt true

/-- The index page of a sample repository. -/
def samplePageAt (tls more : Bool) : (sampleAt tls).Page where
  repo := sampleRepo more
  vars := ⟨(sampleAt tls).config.getURLPrefix (sampleRepo more).name.val,
    (sampleAt tls).repoPath (sampleRepo more), (sampleRepo more).name.val⟩
  rendered := by
    refine ⟨sampleExternals tls, [(ascii "repoName", (sampleRepo more).name.val)], sampleSignIn,
      sampleWorldAt tls, rfl, ?_, rfl, ?_⟩
    · cases more <;> rfl
    · cases tls <;> cases more <;> exact fun _ => rfl
  path := ascii "/"
  rooted := rfl
  unescaped := ⟨by decide +kernel, by decide +kernel⟩

/-- The index page with TLS. -/
abbrev samplePage (more : Bool) : sample.Page := samplePageAt true more

/-- A sign-in to a sample repository. -/
def sampleSignedInAt (tls more : Bool) : (sampleAt tls).SignIn where
  repo := sampleRepo more
  requestPath := ascii "/rpm/sign-in"
  set := ⟨(sampleRepo more).name.val, (sampleRepo more).name.val,
    (sampleAt tls).repoPath (sampleRepo more), 60, false⟩
  now := 0
  sent := by
    refine ⟨sampleExternals tls, [(ascii "repoName", (sampleRepo more).name.val)], sampleSignIn,
      sampleWorldAt tls, rfl, ?_, rfl, ?_⟩
    · cases more <;> rfl
    · cases tls <;> cases more <;> rfl

/-- The sign-in with TLS. -/
abbrev sampleSignedIn (more : Bool) : sample.SignIn := sampleSignedInAt true more

/-- Signed in to both, the page of one repository reports none after its removal, and the page of
the other reports its own. -/
theorem sample_sessionCookie_scope :
    let jar := jarAfter [sampleSignedIn false, sampleSignedIn true]
    let left := (samplePage false).removeAuthCookie jar 1
    (samplePage false).isAuthCookie jar 1 ∧ (samplePage false).isAuthCookie left 1 = false ∧
      (samplePage true).isAuthCookie left 1 := by
  intro jar left
  have hnow : ∀ signIn ∈ [sampleSignedIn false, sampleSignedIn true], signIn.now ≤ 1 := by
    simp [sampleSignedInAt]
  obtain ⟨-, hpages⟩ := (sessionCookie_scope sample).2 [sampleSignedIn false, sampleSignedIn true]
    (samplePage false) 1 hnow
  have hreported (more : Bool) : (samplePage more).isAuthCookie jar 1 := by
    refine (hpages (samplePage more) 1 (Int.le_refl _)).1.mpr ⟨sampleSignedIn more, ?_, ?_, ?_⟩
    · cases more <;> rfl
    · cases more <;> exact nofun
    · exact fun _ => rfl
  have hleft (more : Bool) := (hpages (samplePage more) 1 (Int.le_refl _)).2
  refine ⟨hreported false, ?_, (hleft true).mpr ⟨?_, hreported true⟩⟩
  · exact Bool.eq_false_iff.mpr fun h => ((hleft false).mp h).1 rfl
  · intro h
    exact absurd (congrArg (fun repo => repo.name.val) h) (by decide)

/-- Without TLS the cookies lie in the jar too, but they are secure: after the removal on the page of
one repository that of the other is still alive, and its page does not report it. -/
theorem sample_insecure_not_reported :
    let jar := jarAfter [sampleSignedInAt false false, sampleSignedInAt false true]
    let left := (samplePageAt false false).removeAuthCookie jar 1
    (sampleSignedInAt false true).cookie ∈ left ∧
      ¬ (sampleSignedInAt false true).cookie.expired 1 ∧
      (samplePageAt false true).isAuthCookie left 1 = false := by
  intro jar left
  have hnow : ∀ signIn ∈ [sampleSignedInAt false false, sampleSignedInAt false true],
      signIn.now ≤ 1 := by
    simp [sampleSignedInAt]
  have hjar := holds_jarAfter [sampleSignedInAt false false, sampleSignedInAt false true]
  have halive : ¬ (sampleSignedInAt false true).cookie.expired 1 := nofun
  refine ⟨((samplePageAt false false).mem_removeAuthCookie_iff hjar 1).mpr ⟨?_, ?_, halive⟩,
    halive, Bool.eq_false_iff.mpr fun hreported => ?_⟩
  · exact (mem_jarAfter_iff hnow halive).mpr ⟨sampleRepo true, _, rfl, rfl⟩
  · decide
  · have hstill := (((samplePageAt false false).isAuthCookie_removeAuthCookie_iff _ hjar
      (Int.le_refl 1)).mp hreported).2
    obtain ⟨signIn, -, -, hsecure⟩ :=
      ((samplePageAt false true).isAuthCookie_jarAfter_iff hnow).mp hstill
    exact Bool.false_ne_true (hsecure rfl)

end CookieSite

end RepoManager
