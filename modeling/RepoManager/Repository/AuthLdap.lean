import RepoManager.Library.Directory
import RepoManager.Service.Auth

/-!
# The directory server

`internal/repository/auth_ldap.go`. `go-ldap` is a parameter: a connection is what its calls
return, and `escapeFilter` is known by its law. The group list of a repository is what the search
filter is built from, together with the name that the client typed.

The filter means what the code says, whatever that name: it tests the account name and the groups,
and the typed bytes are values in it. `GetUser` therefore decides membership.
-/

open LdapFilter

namespace RepoManager

/-- `ldap.Scope…` -/
inductive Scope where
  | baseObject
  | singleLevel
  | wholeSubtree
  deriving DecidableEq

/-- `ldap.…DerefAliases` -/
inductive DerefAliases where
  | never
  | inSearching
  | findingBaseObj
  | always
  deriving DecidableEq

/-- `ldap.SearchRequest`, without controls. -/
structure SearchRequest where
  baseDN : ByteString
  scope : Scope
  derefAliases : DerefAliases
  sizeLimit : Nat
  timeLimit : Nat
  typesOnly : Bool
  filter : ByteString
  attributes : List ByteString

/-- `go-ldap`. Every call on a connection answers with the connection it leaves. -/
structure Ldap where
  Conn : Type
  dialURL : ByteString → Except GoError Conn
  startTLS : Conn → Except GoError Conn
  bind : Conn → ByteString → ByteString → Except GoError Conn
  search : Conn → SearchRequest → Except GoError (List Entry)
  escapeFilter : ByteString → ByteString

namespace AuthLdap

/-- `username+"@"+conf.Domain` -/
def principal (username : ByteString) (conf : Auth) : ByteString :=
  username ++ ascii "@" ++ conf.domain

/-- `strings.Join(baseDn, ",")` -/
def baseDn (conf : Auth) : ByteString :=
  [0x2c].intercalate ((conf.domain.splitOn 0x2e).map fun el => ascii "dc=" ++ el)

/-- `gfilter` -/
def gfilter (ldap : Ldap) (conf : Auth) : List ByteString :=
  conf.groups.map fun el => ascii "(memberOf=" ++ ldap.escapeFilter el ++ ascii ")"

/-- `filter` -/
def filter (ldap : Ldap) (username : ByteString) (conf : Auth) : ByteString :=
  ascii "(&(sAMAccountName=" ++ ldap.escapeFilter username ++ ascii ")(|" ++
    (gfilter ldap conf).flatten ++ ascii "))"

/-- `searchRequest` -/
def searchRequest (ldap : Ldap) (username : ByteString) (conf : Auth) : SearchRequest where
  baseDN := baseDn conf
  scope := .wholeSubtree
  derefAliases := .never
  sizeLimit := 1
  timeLimit := 0
  typesOnly := false
  filter := filter ldap username conf
  attributes := [ascii "distinguishedName"]

/-- `AuthLdap.ldapConnect` -/
def ldapConnect (ldap : Ldap) (username password : ByteString) (conf : Auth) :
    Except GoError ldap.Conn := do
  let conn ← ldap.dialURL (ascii "ldap" ++ ascii "://" ++ conf.server)
  let conn ← ldap.startTLS conn
  ldap.bind conn (principal username conf) password

/-- `AuthLdap.ldapSearchUser` -/
def ldapSearchUser (ldap : Ldap) (conn : ldap.Conn) (username : ByteString) (conf : Auth) :
    Except GoError Unit := do
  let entries ← ldap.search conn (searchRequest ldap username conf)
  if entries.length ≠ 1 then
    throw (ascii "user does not exist or too many entries returned")

/-- `AuthLdap.GetUser` -/
def getUser (ldap : Ldap) : GetUser := fun username password conf =>
  let result := do
    let conn ← ldapConnect ldap username password conf
    ldapSearchUser ldap conn username conf
  match result with
  | .ok () => none
  | .error err => some err

end AuthLdap

/-! ## What is assumed of the package and the server -/

/-- `ldap.EscapeFilter`: what must be escaped becomes a backslash and its two digits. -/
def Ldap.EscapesFilter (ldap : Ldap) : Prop :=
  ∃ digits : UInt8 → UInt8 × UInt8,
    (∀ byte, hexByte (digits byte).1 (digits byte).2 = some byte) ∧
      ldap.escapeFilter = escapeWith digits

/-- A search of a subtree answers with entries that the filter is true of, and short of its size
limit with all of them. It fails when its size limit is one and there are more. -/
structure Ldap.Answers (ldap : Ldap) (directory : Directory) (conn : ldap.Conn) : Prop where
  sound : ∀ (request : SearchRequest) filter found, FilterText filter request.filter →
    request.scope = .wholeSubtree → ldap.search conn request = .ok found →
    (found.map Entry.dn).Subperm ((directory.found request.baseDN filter).map Entry.dn)
  complete : ∀ (request : SearchRequest) filter found, FilterText filter request.filter →
    request.scope = .wholeSubtree → ldap.search conn request = .ok found →
    found.length < request.sizeLimit →
    (directory.found request.baseDN filter).length ≤ found.length
  limit : ∀ (request : SearchRequest) filter, FilterText filter request.filter →
    request.scope = .wholeSubtree → request.sizeLimit = 1 →
    1 < (directory.found request.baseDN filter).length →
    ∃ err, ldap.search conn request = .error err

namespace AuthLdap

/-- The account is named `username`, and belongs to some of the groups. -/
def membership (username : ByteString) (groups : List ByteString) : Filter :=
  .and [equality (ascii "sAMAccountName") username,
    .or (groups.map (equality (ascii "memberOf")))]

/-- The entries below the searched base that are this account and belong to a configured group. -/
def members (directory : Directory) (username : ByteString) (conf : Auth) : Nat :=
  directory.entries.countP fun entry =>
    directory.under (baseDn conf) entry &&
      directory.schema.has entry (ascii "sAMAccountName") username &&
      conf.groups.any (directory.schema.has entry (ascii "memberOf"))

/-- The names that the filter tests are attribute descriptions. -/
theorem isAttribute_of_isKeyString {attr : ByteString} (h : isKeyString attr) :
    IsAttribute attr := by
  refine ⟨attr, [], .inl h, ?_, ?_⟩ <;> simp

section Filter

variable {ldap : Ldap} (username : ByteString) (conf : Auth)

/-- The tests of the groups, by their texts. -/
theorem flatten_gfilter : (gfilter ldap conf).flatten =
    conf.groups.flatMap fun el => equalityText (ascii "memberOf") (ldap.escapeFilter el) := by
  rw [gfilter, List.flatMap_def]
  rfl

/-- The filter, by the texts of its tests. -/
theorem filter_eq : filter ldap username conf =
    leftParen :: ampersand ::
      (equalityText (ascii "sAMAccountName") (ldap.escapeFilter username) ++
        leftParen :: verticalBar :: ((gfilter ldap conf).flatten ++ [rightParen]) ++
          [rightParen]) := by
  change (leftParen :: ampersand :: leftParen :: ascii "sAMAccountName" ++ [equals]) ++
    ldap.escapeFilter username ++ [rightParen, leftParen, verticalBar] ++
      (gfilter ldap conf).flatten ++ [rightParen, rightParen] = _
  simp [equalityText]

/-- The filter spells membership: the typed name and the groups are values in it. -/
theorem filterText_filter (hescape : ldap.EscapesFilter) (hgroups : conf.groups ≠ []) :
    FilterText (membership username conf.groups) (filter ldap username conf) := by
  obtain ⟨digits, hdigits, hescape⟩ := hescape
  have hencodes (value : ByteString) : Encodes value (ldap.escapeFilter value) :=
    hescape ▸ encodes_escapeWith hdigits value
  have hname : IsAttribute (ascii "sAMAccountName") := isAttribute_of_isKeyString (by decide)
  have hmember : IsAttribute (ascii "memberOf") := isAttribute_of_isKeyString (by decide)
  have hor := Spells.or (by simpa using hgroups)
    (spells_equalities hmember hencodes conf.groups) .nil
  rw [filter_eq, flatten_gfilter]
  have hand := Spells.and (by simp) (hor.equality hname (hencodes username)) .nil
  simpa [FilterText, membership] using hand

/-- The filter means membership and nothing else. -/
theorem filterText_filter_iff (hescape : ldap.EscapesFilter) (hgroups : conf.groups ≠ [])
    (found : Filter) :
    FilterText found (filter ldap username conf) ↔ found = membership username conf.groups := by
  constructor
  · exact fun h => h.unique (filterText_filter username conf hescape hgroups)
  · rintro rfl
    exact filterText_filter username conf hescape hgroups

end Filter

/-- A user is found when the bind is accepted and the search returns one entry. -/
theorem getUser_eq_none_iff {ldap : Ldap} {username password : ByteString} {conf : Auth}
    {conn secured : ldap.Conn} (hdial : ldap.dialURL (ascii "ldap://" ++ conf.server) = .ok conn)
    (htls : ldap.startTLS conn = .ok secured) :
    getUser ldap username password conf = none ↔
      ∃ bound, ldap.bind secured (principal username conf) password = .ok bound ∧
        ∃ entries, ldap.search bound (searchRequest ldap username conf) = .ok entries ∧
          entries.length = 1 := by
  have hconnect : ldapConnect ldap username password conf =
      ldap.bind secured (principal username conf) password := by
    change (ldap.dialURL (ascii "ldap://" ++ conf.server) >>= fun conn =>
      ldap.startTLS conn >>= fun conn => ldap.bind conn (principal username conf) password) = _
    rw [hdial]
    change (ldap.startTLS conn >>= fun conn => ldap.bind conn _ password) = _
    rw [htls]
    rfl
  have hsearch (bound : ldap.Conn) : ldapSearchUser ldap bound username conf = .ok () ↔
      ∃ entries, ldap.search bound (searchRequest ldap username conf) = .ok entries ∧
        entries.length = 1 := by
    rw [ldapSearchUser, bind_eq_ok_iff]
    refine exists_congr fun entries => and_congr_right fun _ => ?_
    by_cases hlength : entries.length = 1
    · simp [hlength, pure, Except.pure]
    · simp [hlength, throw, throwThe, MonadExceptOf.throw]
  have hresult : getUser ldap username password conf = none ↔
      (ldapConnect ldap username password conf >>= fun conn =>
        ldapSearchUser ldap conn username conf) = .ok () := by
    simp only [getUser]
    split
    · next h => simp [h]
    · next err h => simp [h]
  simp only [hresult, bind_eq_ok_iff, hconnect, hsearch]

/-- The search filter built from any user name parses to the test of the account name and the
groups and to nothing else, the bytes of the name being a value in it. When no connection fails,
nor a search but at its size limit, the user is accepted exactly when the bind is and one entry
under the base is that account and belongs to a configured group. -/
theorem getUser_decides_membership (ldap : Ldap) (hescape : ldap.EscapesFilter)
    (username : ByteString) (conf : Auth) (hgroups : conf.groups ≠ []) :
    (∀ found, FilterText found (filter ldap username conf) ↔
      found = membership username conf.groups) ∧
    ∀ (directory : Directory) (password : ByteString) (conn secured : ldap.Conn),
      ldap.dialURL (ascii "ldap://" ++ conf.server) = .ok conn →
      ldap.startTLS conn = .ok secured →
      (∀ bound, ldap.bind secured (principal username conf) password = .ok bound →
        ldap.Answers directory bound ∧
          ∀ err, ldap.search bound (searchRequest ldap username conf) = .error err →
            1 < (directory.found (baseDn conf) (membership username conf.groups)).length) →
      (getUser ldap username password conf = none ↔
        (∃ bound, ldap.bind secured (principal username conf) password = .ok bound) ∧
          members directory username conf = 1) := by
  have hfilter := filterText_filter username conf hescape hgroups
  refine ⟨filterText_filter_iff username conf hescape hgroups, ?_⟩
  intro directory password conn secured hdial htls hanswers
  have hmembers : members directory username conf =
      (directory.found (baseDn conf) (membership username conf.groups)).length :=
    (directory.length_found ..).symm
  rw [getUser_eq_none_iff hdial htls, hmembers]
  constructor
  · rintro ⟨bound, hbound, entries, hsearch, hlength⟩
    obtain ⟨hserver, -⟩ := hanswers bound hbound
    have hfound := (hserver.sound _ _ entries hfilter rfl hsearch).length_le
    have hlimit := hserver.limit (searchRequest ldap username conf) _ hfilter rfl rfl
    simp only [searchRequest, List.length_map, hlength] at hfound hlimit
    refine ⟨⟨bound, hbound⟩, ?_⟩
    by_contra hmany
    obtain ⟨err, herr⟩ := hlimit (by omega)
    rw [searchRequest, herr] at hsearch
    exact nomatch hsearch
  · rintro ⟨⟨bound, hbound⟩, hone⟩
    obtain ⟨hserver, hfails⟩ := hanswers bound hbound
    refine ⟨bound, hbound, ?_⟩
    cases hsearch : ldap.search bound (searchRequest ldap username conf) with
    | error err =>
      have hmany := hfails err hsearch
      omega
    | ok entries =>
      have hfound := (hserver.sound _ _ entries hfilter rfl hsearch).length_le
      have hall := hserver.complete _ _ entries hfilter rfl hsearch
      simp only [searchRequest, List.length_map] at hfound hall
      refine ⟨entries, rfl, ?_⟩
      omega

/-- The digits that `go-ldap` writes. -/
def lowerHex (byte : UInt8) : UInt8 × UInt8 :=
  let digit (value : UInt8) : UInt8 := if value < 10 then 0x30 + value else 0x57 + value
  (digit (byte / 16), digit (byte % 16))

/-- Two accounts, of which `ann` is in the group `dev`. -/
def sampleDirectory : Directory where
  schema := ⟨fun _ stored value => some (decide (stored = value)), fun _ _ => none⟩
  entries :=
    let account (name group : ByteString) : Entry :=
      ⟨name, fun attr =>
        if attr = ascii "sAMAccountName" then [name]
        else if attr = ascii "memberOf" then [group]
        else []⟩
    [account (ascii "ann") (ascii "cn=dev,dc=x"), account (ascii "bob") (ascii "cn=ops,dc=x")]
  under base _ := base = ascii "dc=x,dc=org"

/-- A server of that directory. -/
def sampleLdap : Ldap where
  Conn := Unit
  dialURL _ := .ok ()
  startTLS _ := .ok ()
  bind _ _ password := if password = ascii "pw" then .ok () else .error (ascii "49")
  search _ request :=
    let found := sampleDirectory.found request.baseDN (read request.filter)
    if request.sizeLimit = 1 ∧ 1 < found.length then .error (ascii "4") else .ok found
  escapeFilter := escapeWith lowerHex

/-- The sample configuration. -/
def sampleAuth : Auth := ⟨[], ascii "x.org", ascii "ldap.x.org", [ascii "cn=dev,dc=x"], 0⟩

/-- A search of the sample server, for a filter that is spelled. -/
theorem sampleLdap_search (bound : sampleLdap.Conn) (request : SearchRequest) {filter : Filter}
    (hfilter : FilterText filter request.filter) :
    sampleLdap.search bound request =
      if request.sizeLimit = 1 ∧ 1 < (sampleDirectory.found request.baseDN filter).length then
        .error (ascii "4")
      else .ok (sampleDirectory.found request.baseDN filter) := by
  rw [← hfilter.read_eq]
  rfl

/-- The sample server answers from its directory. -/
theorem sampleLdap_answers (bound : sampleLdap.Conn) : sampleLdap.Answers sampleDirectory bound where
  sound request filter found hfilter _ hsearch := by
    rw [sampleLdap_search bound request hfilter] at hsearch
    split at hsearch
    · exact nomatch hsearch
    · rw [Except.ok.inj hsearch]
  complete request filter found hfilter _ hsearch _ := by
    rw [sampleLdap_search bound request hfilter] at hsearch
    split at hsearch
    · exact nomatch hsearch
    · rw [Except.ok.inj hsearch]
  limit request filter hfilter _ hlimit hmany := by
    rw [sampleLdap_search bound request hfilter]
    exact ⟨_, if_pos ⟨hlimit, hmany⟩⟩

/-- The sample package escapes as assumed. -/
theorem sampleLdap_escapesFilter : sampleLdap.EscapesFilter := by
  refine ⟨lowerHex, fun byte => ?_, rfl⟩
  apply UrlPath.forall_byte byte
  decide +kernel

/-- `ann` is accepted with her password, and the name `*` is not. -/
theorem sample_getUser_decides_membership :
    getUser sampleLdap (ascii "ann") (ascii "pw") sampleAuth = none ∧
      getUser sampleLdap (ascii "*") (ascii "pw") sampleAuth ≠ none := by
  have hbind (username : ByteString) (bound : sampleLdap.Conn) :
      sampleLdap.Answers sampleDirectory bound ∧
        ∀ err, sampleLdap.search bound (searchRequest sampleLdap username sampleAuth) = .error err →
          1 < (sampleDirectory.found (baseDn sampleAuth)
            (membership username sampleAuth.groups)).length := by
    refine ⟨sampleLdap_answers bound, fun err herr => ?_⟩
    have hfilter := filterText_filter username sampleAuth sampleLdap_escapesFilter (by decide)
    rw [sampleLdap_search bound _ hfilter] at herr
    split at herr
    · next hmany => exact hmany.2
    · exact nomatch herr
  constructor
  · exact ((getUser_decides_membership sampleLdap sampleLdap_escapesFilter (ascii "ann")
      sampleAuth (by decide)).2 sampleDirectory (ascii "pw") () () rfl rfl
      fun bound _ => hbind _ bound).mpr ⟨⟨(), rfl⟩, rfl⟩
  · exact fun h => absurd (((getUser_decides_membership sampleLdap sampleLdap_escapesFilter
      (ascii "*") sampleAuth (by decide)).2 sampleDirectory (ascii "pw") () () rfl rfl
      fun bound _ => hbind _ bound).mp h).2 (by decide)

end AuthLdap

end RepoManager
