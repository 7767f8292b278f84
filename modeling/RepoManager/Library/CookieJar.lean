import RepoManager.Library.UrlPath

/-!
# The cookies of a user agent

RFC 6265 for the cookies of one host that carry no `Domain` attribute: how a set-cookie-string is
parsed, the storage model, and the cookie-string that a request or a script is given. `Max-Age`
has precedence over `Expires`, which is left out; times are seconds.

A cookie is known by its name and its path. What a page sees of a jar depends on path-match, and
`pathMatch_iff` decides it for paths that share a base.
-/

open LexicalPath UrlPath

namespace CookieJar

/-- The byte `;`. -/
def semicolon : UInt8 := 0x3b

/-- The byte `=`. -/
def equals : UInt8 := 0x3d

/-- `WSP` -/
def isWsp (byte : UInt8) : Bool := byte = 0x20 ∨ byte = 0x09

/-- Remove the white space around a text. -/
def trimWsp (text : ByteString) : ByteString := (text.dropWhile isWsp).rdropWhile isWsp

/-- What stands before the first `=` and after it. -/
def cut (text : ByteString) : ByteString × ByteString :=
  (text.takeWhile (· ≠ equals), (text.dropWhile (· ≠ equals)).tail)

/-! ## Set-cookie-strings -/

/-- A parsed set-cookie-string. The path is missing when the attribute is, or is not rooted. -/
structure Directive where
  name : ByteString
  value : ByteString
  path : Option ByteString
  maxAge : Option Int
  secure : Bool
  httpOnly : Bool
  deriving DecidableEq

/-- `DIGIT` -/
def isDigit (byte : UInt8) : Bool := 0x30 ≤ byte ∧ byte ≤ 0x39

/-- The number that digits denote. -/
def decimal (digits : ByteString) : Nat :=
  digits.foldl (fun number digit => 10 * number + (digit - 0x30).toNat) 0

/-- The value of a `Max-Age` attribute. -/
def parseMaxAge : ByteString → Option Int
  | [] => none
  | first :: rest =>
    if rest.all isDigit = false then none
    else if first = 0x2d then some (-decimal rest)
    else if isDigit first then some (decimal (first :: rest))
    else none

/-- Process one `cookie-av`; the last one of a name counts. -/
def applyAttribute (directive : Directive) (cookieAv : ByteString) : Directive :=
  let name := (trimWsp (cut cookieAv).1).map lower
  let value := trimWsp (cut cookieAv).2
  if name = ascii "max-age" then { directive with maxAge := parseMaxAge value <|> directive.maxAge }
  else if name = ascii "path" then
    { directive with path := if value.head? = some slash then some value else none }
  else if name = ascii "secure" then { directive with secure := true }
  else if name = ascii "httponly" then { directive with httpOnly := true }
  else directive

/-- Parse a set-cookie-string. -/
def parseSetCookie (text : ByteString) : Option Directive :=
  match text.splitOn semicolon with
  | [] => none
  | pair :: attributes =>
    let name := trimWsp (cut pair).1
    if equals ∉ pair ∨ name = [] then none
    else some (attributes.foldl applyAttribute
      ⟨name, trimWsp (cut pair).2, none, none, false, false⟩)

/-! ## Storage -/

/-- `expiry-time` -/
inductive Expiry where
  | session
  | at (second : Int)
  | past
  deriving DecidableEq

/-- A stored cookie. -/
structure Cookie where
  name : ByteString
  value : ByteString
  path : ByteString
  expiry : Expiry
  secureOnly : Bool
  httpOnly : Bool
  deriving DecidableEq

/-- The cookies in the order of their creation. -/
abbrev Jar := List Cookie

/-- `default-path` of a request. -/
def defaultPath (requestPath : ByteString) : ByteString :=
  if requestPath.head? ≠ some slash ∨ requestPath.count slash ≤ 1 then [slash]
  else (requestPath.rdropWhile (· ≠ slash)).dropLast

/-- The request-path path-matches the cookie-path. -/
def pathMatch (requestPath cookiePath : ByteString) : Bool :=
  requestPath = cookiePath ∨ cookiePath <+: requestPath ∧
    (cookiePath.getLast? = some slash ∨
      (requestPath.drop cookiePath.length).head? = some slash)

/-- When a cookie expires that is received now. -/
def Expiry.ofMaxAge (now : Int) : Option Int → Expiry
  | none => .session
  | some seconds => if seconds ≤ 0 then .past else .at (now + seconds)

/-- Expired. -/
def Cookie.expired (cookie : Cookie) (now : Int) : Bool :=
  match cookie.expiry with
  | .session => false
  | .at second => second < now
  | .past => true

/-- The cookie that a directive makes. -/
def Directive.cookie (directive : Directive) (now : Int) (requestPath : ByteString) : Cookie where
  name := directive.name
  value := directive.value
  path := directive.path.getD (defaultPath requestPath)
  expiry := .ofMaxAge now directive.maxAge
  secureOnly := directive.secure
  httpOnly := directive.httpOnly

/-- The same cookie, perhaps with another value. -/
def Cookie.same (cookie other : Cookie) : Bool :=
  cookie.name = other.name ∧ cookie.path = other.path

/-- Put a cookie into the place of the same cookie, or at the end. -/
def put (jar : Jar) (cookie : Cookie) : Jar :=
  if jar.any (·.same cookie) then jar.map fun old => if old.same cookie then cookie else old
  else jar ++ [cookie]

/-- Remove what is expired. -/
def evict (jar : Jar) (now : Int) : Jar := jar.filter fun cookie => !cookie.expired now

/-- Receive a cookie, from the network or from a script. -/
def receive (jar : Jar) (now : Int) (requestPath : ByteString) (http : Bool)
    (directive : Directive) : Jar :=
  let cookie := directive.cookie now requestPath
  if !http && (cookie.httpOnly || jar.any fun old => old.same cookie && old.httpOnly) then jar
  else evict (put jar cookie) now

/-- The cookie is sent with a request, or shown to a script. -/
def Cookie.visible (cookie : Cookie) (now : Int) (requestPath : ByteString) (secure http : Bool) :
    Bool :=
  !cookie.expired now && pathMatch requestPath cookie.path && (!cookie.secureOnly || secure) &&
    (!cookie.httpOnly || http)

/-- The cookie-string: longer paths come first, then earlier cookies. -/
def cookieString (jar : Jar) (now : Int) (requestPath : ByteString) (secure http : Bool) :
    ByteString :=
  let cookies := (jar.filter (·.visible now requestPath secure http)).mergeSort
    fun cookie other => decide (other.path.length ≤ cookie.path.length)
  (ascii "; ").intercalate (cookies.map fun cookie => cookie.name ++ equals :: cookie.value)

/-- The names and values of the cookies that are sent with a request, in that order. -/
def cookiesSent (jar : Jar) (now : Int) (requestPath : ByteString) (secure : Bool) :
    List (ByteString × ByteString) :=
  let cookies := (jar.filter (·.visible now requestPath secure true)).mergeSort
    fun cookie other => decide (other.path.length ≤ cookie.path.length)
  cookies.map fun cookie => (cookie.name, cookie.value)

/-! ## Path-match below a base -/

section PathMatch

variable {base name other rest : ByteString}

/-- The first name of a path is what stands before its first slash. -/
theorem eq_of_append_slash {after : ByteString} (hname : slash ∉ name) (hother : slash ∉ other)
    (h : name ++ slash :: after = other ++ slash :: rest) : name = other := by
  have htake := congrArg (List.takeWhile (· ≠ slash)) h
  rwa [takeWhile_ne_append hname, takeWhile_ne_append hother] at htake

/-- The cookie of a path name is seen below this name and below no other. -/
theorem pathMatch_iff (hname : slash ∉ name) (hne : name ≠ []) (hother : slash ∉ other) :
    pathMatch (base ++ slash :: (other ++ slash :: rest)) (base ++ slash :: name) ↔
      name = other := by
  simp only [pathMatch, decide_eq_true_eq]
  constructor
  · rintro (heq | ⟨⟨after, hafter⟩, hlast | hhead⟩)
    · have hmem : slash ∈ name := by simp [← (List.cons.inj (List.append_cancel_left heq)).2]
      exact absurd hmem hname
    · have hmem : slash ∈ name := by
        refine List.mem_of_getLast? ?_
        rwa [List.getLast?_append_cons, List.getLast?_cons_of_ne_nil hne] at hlast
      exact absurd hmem hname
    · rw [← hafter, List.drop_left] at hhead
      rw [List.append_assoc, List.append_cancel_left_eq, List.cons_append, List.cons.injEq]
        at hafter
      obtain ⟨later, rfl⟩ : ∃ later, after = slash :: later := by
        cases after with
        | nil => simp at hhead
        | cons byte later => exact ⟨later, by simpa using hhead⟩
      exact eq_of_append_slash hname hother hafter.2
  · rintro rfl
    have hsplit : base ++ slash :: (name ++ slash :: rest) =
        (base ++ slash :: name) ++ slash :: rest := by simp
    rw [hsplit, List.drop_left]
    exact .inr ⟨List.prefix_append _ _, .inr rfl⟩

end PathMatch

/-! ## What a jar holds -/

section Jars

variable {jar : Jar} {cookie other : Cookie} {now : Int} {requestPath : ByteString}

/-- A jar after a cookie was put into it. -/
theorem mem_put_iff : other ∈ put jar cookie ↔ other = cookie ∨ other ∈ jar ∧ ¬ other.same cookie := by
  unfold put
  split
  · next hany =>
    obtain ⟨old, hold, hsame⟩ := List.any_eq_true.mp hany
    rw [List.mem_map]
    constructor
    · rintro ⟨old, hold, rfl⟩
      split
      · exact .inl rfl
      · next hsame => exact .inr ⟨hold, hsame⟩
    · rintro (rfl | ⟨hother, hdiffers⟩)
      · exact ⟨old, hold, if_pos hsame⟩
      · exact ⟨other, hother, if_neg hdiffers⟩
  · next hany =>
    simp only [List.any_eq_true, not_exists, not_and] at hany
    rw [List.mem_append, List.mem_singleton, or_comm]
    exact or_congr_right ⟨fun hother => ⟨hother, hany other hother⟩, And.left⟩

/-- A jar after it received a cookie that it may store. -/
theorem mem_receive_iff {http : Bool} {directive : Directive}
    (hallowed : http ∨ directive.httpOnly = false ∧ ∀ old ∈ jar, old.httpOnly = false) :
    other ∈ receive jar now requestPath http directive ↔
      (other = directive.cookie now requestPath ∨
        other ∈ jar ∧ ¬ other.same (directive.cookie now requestPath)) ∧ ¬ other.expired now := by
  have hstored : receive jar now requestPath http directive =
      evict (put jar (directive.cookie now requestPath)) now := by
    rw [receive, if_neg]
    rcases hallowed with rfl | ⟨hcookie, hjar⟩
    · simp
    · have hold : ∀ old ∈ jar, ¬ (old.same (directive.cookie now requestPath) && old.httpOnly) := by
        intro old hmem
        simp [hjar old hmem]
      simpa [Directive.cookie, hcookie] using fun _ => hold
  rw [hstored, evict, List.mem_filter, mem_put_iff, Bool.not_eq_true']
  simp

/-- A cookie that is expired at some time is expired later. -/
theorem Cookie.expired_mono {later : Int} (h : cookie.expired now) (hle : now ≤ later) :
    cookie.expired later := by
  unfold expired at h ⊢
  split at h
  · exact h
  · simp only [decide_eq_true_eq] at h ⊢
    omega
  · rfl

variable {secure http : Bool}

/-- The cookie-string of a page that sees no cookie. -/
theorem cookieString_of_not_visible
    (h : ∀ cookie ∈ jar, ¬ cookie.visible now requestPath secure http) :
    cookieString jar now requestPath secure http = [] := by
  have hnone : jar.filter (·.visible now requestPath secure http) = [] :=
    List.filter_eq_nil_iff.mpr h
  simp [cookieString, hnone]

/-- The cookie-string of a page that sees cookies of one name only. -/
theorem exists_cookieString {name : ByteString}
    (hvisible : ∃ cookie ∈ jar, cookie.visible now requestPath secure http)
    (hname : ∀ cookie ∈ jar, cookie.visible now requestPath secure http → cookie.name = name) :
    ∃ rest, cookieString jar now requestPath secure http = name ++ equals :: rest := by
  obtain ⟨cookie, hcookie, hseen⟩ := hvisible
  have hmem : cookie ∈ (jar.filter (·.visible now requestPath secure http)).mergeSort
      fun cookie other => decide (other.path.length ≤ cookie.path.length) :=
    List.mem_mergeSort.mpr (List.mem_filter.mpr ⟨hcookie, hseen⟩)
  have hall : ∀ first ∈ (jar.filter (·.visible now requestPath secure http)).mergeSort
      (fun cookie other => decide (other.path.length ≤ cookie.path.length)),
      first.name = name := by
    intro first hfirst
    have hfirst := List.mem_filter.mp (List.mem_mergeSort.mp hfirst)
    exact hname first hfirst.1 hfirst.2
  unfold cookieString
  generalize List.mergeSort _ _ = cookies at hmem hall
  match cookies with
  | [first] =>
    rw [← hall first List.mem_cons_self]
    exact ⟨first.value, by simp⟩
  | first :: second :: cookies =>
    rw [← hall first List.mem_cons_self]
    simp only [List.map_cons, List.intercalate_cons_cons, List.append_assoc, List.cons_append]
    exact ⟨_, rfl⟩

/-- What is sent are the cookies that are visible. -/
theorem mem_cookiesSent_iff {pair : ByteString × ByteString} :
    pair ∈ cookiesSent jar now requestPath secure ↔
      ∃ cookie ∈ jar, cookie.visible now requestPath secure true ∧
        (cookie.name, cookie.value) = pair := by
  simp only [cookiesSent, List.mem_map, List.mem_mergeSort, List.mem_filter, and_assoc]

/-- The value that is found under a name is that of a visible cookie. -/
theorem exists_of_lookup_cookiesSent {name value : ByteString}
    (h : (cookiesSent jar now requestPath secure).lookup name = some value) :
    ∃ cookie ∈ jar, cookie.visible now requestPath secure true ∧ cookie.name = name ∧
      cookie.value = value := by
  obtain ⟨before, after, heq, -⟩ := List.lookup_eq_some_iff.mp h
  have hmem : (name, value) ∈ cookiesSent jar now requestPath secure := by simp [heq]
  obtain ⟨cookie, hcookie, hseen, hpair⟩ := mem_cookiesSent_iff.mp hmem
  obtain ⟨hname, hvalue⟩ := Prod.mk.inj hpair
  exact ⟨cookie, hcookie, hseen, hname, hvalue⟩

/-- The only visible cookie of a name is found. -/
theorem lookup_cookiesSent (hcookie : cookie ∈ jar)
    (hseen : cookie.visible now requestPath secure true)
    (honly : ∀ other ∈ jar, other.visible now requestPath secure true → other.name = cookie.name →
      other = cookie) :
    (cookiesSent jar now requestPath secure).lookup cookie.name = some cookie.value := by
  cases hlookup : (cookiesSent jar now requestPath secure).lookup cookie.name with
  | none =>
    have hmem := mem_cookiesSent_iff.mpr ⟨cookie, hcookie, hseen, rfl⟩
    have hne := List.lookup_eq_none_iff.mp hlookup _ hmem
    simp at hne
  | some value =>
    obtain ⟨other, hother, hvisible, hname, rfl⟩ := exists_of_lookup_cookiesSent hlookup
    rw [honly other hother hvisible hname]

end Jars

/-- A text without white space is not trimmed. -/
theorem trimWsp_of_not_isWsp {text : ByteString} (h : ∀ byte ∈ text, isWsp byte = false) :
    trimWsp text = text := by
  have hstart : text.dropWhile isWsp = text := by
    cases text with
    | nil => rfl
    | cons byte text => exact List.dropWhile_cons_of_neg (by simp [h byte List.mem_cons_self])
  rw [trimWsp, hstart]
  refine List.rdropWhile_eq_self_iff.mpr fun hne => ?_
  simp [h _ (List.getLast_mem hne)]

end CookieJar
