import RepoManager.Config
import RepoManager.Repository.Files

/-!
# The authorization service

`internal/service/auth.go`. A token carries the repository it was issued for and expires a fixed
time after the sign-in. The directory server and the JWT library are parameters; time is counted
in whole Unix seconds.
-/

namespace RepoManager

/-- `tokenTTL`, in seconds. -/
def tokenTTL : Int := 12 * 60 * 60

/-- `tokenClaims` -/
structure TokenClaims where
  expiresAt : Int
  issuedAt : Int
  repo : ByteString
  deriving DecidableEq

/-- `jwt-go` with the signing key and method of the service: `parse` verifies the signature and
the times at the given second. -/
structure Jwt where
  sign : TokenClaims → Except GoError ByteString
  parse : ByteString → Int → Except GoError TokenClaims

/-- A token of the service that parses is read as it was signed, and not after its expiry. This
holds of `jwt-go` for a clock that counts from 1970 and the names that a session store accepts:
an expiry of 0 would be none, and a name that is not UTF-8 would be read as another. -/
def Jwt.Sound (jwt : Jwt) : Prop :=
  ∀ issued repoName token parsed now,
    jwt.sign ⟨issued + tokenTTL, issued, repoName⟩ = .ok token → jwt.parse token now = .ok parsed →
      parsed = ⟨issued + tokenTTL, issued, repoName⟩ ∧ now ≤ issued + tokenTTL

/-- A token of the service is accepted from its issue until its expiry. -/
def Jwt.Complete (jwt : Jwt) : Prop :=
  ∀ issued repoName token now, jwt.sign ⟨issued + tokenTTL, issued, repoName⟩ = .ok token →
    issued ≤ now → now ≤ issued + tokenTTL →
      jwt.parse token now = .ok ⟨issued + tokenTTL, issued, repoName⟩

/-- `GetUser` of the directory server at one moment: the error it answers, if any. -/
abbrev GetUser := ByteString → ByteString → Auth → Option GoError

namespace AuthService

/-- `AuthService.GenerateToken` -/
def generateToken (jwt : Jwt) (getUser : GetUser) (now : Int)
    (username password repoName : ByteString) (conf : Auth) : Except GoError ByteString :=
  match getUser username password conf with
  | some err => .error err
  | none => jwt.sign ⟨now + tokenTTL, now, repoName⟩

/-- `AuthService.ParseToken` -/
def parseToken (jwt : Jwt) (now : Int) (accessToken repoName : ByteString) : Except GoError Unit :=
  match jwt.parse accessToken now with
  | .error err => .error err
  | .ok payload =>
    if payload.repo ≠ repoName then .error (ascii "token claims are not of type *tokenClaims")
    else .ok ()

/-- A generated token: the directory accepted the credentials, and the claims are fixed. -/
theorem generateToken_eq_ok_iff (jwt : Jwt) (getUser : GetUser) (now : Int)
    (username password repoName : ByteString) (conf : Auth) (token : ByteString) :
    generateToken jwt getUser now username password repoName conf = .ok token ↔
      getUser username password conf = none ∧
        jwt.sign ⟨now + tokenTTL, now, repoName⟩ = .ok token := by
  unfold generateToken
  split <;> simp_all

/-- A token is accepted for the repository in its claims only. -/
theorem parseToken_eq_ok_iff (jwt : Jwt) (now : Int) (accessToken repoName : ByteString) :
    parseToken jwt now accessToken repoName = .ok () ↔
      ∃ payload, jwt.parse accessToken now = .ok payload ∧ payload.repo = repoName := by
  unfold parseToken
  split
  · next err herr => simp [herr]
  · next payload hpayload => by_cases hrepo : payload.repo = repoName <;> simp [hpayload, hrepo]

end AuthService

end RepoManager
