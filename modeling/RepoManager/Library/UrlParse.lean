import RepoManager.Library.UrlPath

/-!
# `url.Parse`

The field `Path` of what `url.Parse` of the standard library of Go returns, `none` for an error.
What it accepts as an authority is a parameter: user information, host and port have no part in
the path.
-/

open LexicalPath UrlPath

namespace UrlParse

/-- A byte of a scheme. -/
def inScheme (byte : UInt8) : Bool :=
  (0x61 ≤ lower byte ∧ lower byte ≤ 0x7a) ∨ (0x30 ≤ byte ∧ byte ≤ 0x39) ∨
    byte = 0x2b ∨ byte = 0x2d ∨ byte = 0x2e

/-- `stringContainsCTLByte`, for one byte. -/
def isControl (byte : UInt8) : Bool := byte < 0x20 ∨ byte = 0x7f

/-- The byte `:`. -/
def colon : UInt8 := 0x3a

/-- `getScheme`: the scheme, empty when there is none, and what follows it. -/
def getScheme (rawURL : ByteString) : Option (ByteString × ByteString) :=
  let scheme := rawURL.takeWhile inScheme
  match rawURL.dropWhile inScheme with
  | byte :: rest =>
    if byte ≠ colon then some ([], rawURL)
    else
      match scheme with
      | [] => none
      | first :: _ => if 0x61 ≤ lower first ∧ lower first ≤ 0x7a then some (scheme, rest)
        else some ([], rawURL)
  | [] => some ([], rawURL)

/-- The path of what follows the scheme, without its query. -/
def hierarchy (parseAuthority : ByteString → Bool) (scheme rest : ByteString) :
    Option ByteString :=
  if rest.head? ≠ some slash then
    if scheme ≠ [] then some []
    else if colon ∈ rest.takeWhile (· ≠ slash) then none
    else decode rest
  else if [slash, slash] <+: rest ∧ (scheme ≠ [] ∨ ¬ [slash, slash, slash] <+: rest) then
    let rest := rest.drop 2
    if parseAuthority (rest.takeWhile (· ≠ slash)) then decode (rest.dropWhile (· ≠ slash)) else none
  else decode rest

/-- `parse`, on a string without fragment. -/
def parse (parseAuthority : ByteString → Bool) (rawURL : ByteString) : Option ByteString :=
  if rawURL.any isControl then none
  else if rawURL = ascii "*" then some rawURL
  else
    match getScheme rawURL with
    | none => none
    | some (scheme, rest) => hierarchy parseAuthority scheme (rest.takeWhile (· ≠ question))

/-- `Parse` -/
def urlParse (parseAuthority : ByteString → Bool) (rawURL : ByteString) : Option ByteString :=
  match parse parseAuthority (rawURL.takeWhile (· ≠ hash)) with
  | none => none
  | some path =>
    match decode (rawURL.dropWhile (· ≠ hash)).tail with
    | none => none
    | some _ => some path

/-- An unescaped path has no byte that `url.Parse` treats specially. -/
theorem not_special (byte : UInt8) : isUnreserved byte ∨ byte = slash →
    isControl byte = false ∧ endsPath byte = false ∧ byte ≠ percent := by
  apply forall_byte byte
  decide +kernel

section Origins

variable (parseAuthority : ByteString → Bool) (origin : Origin) {path : ByteString}

/-- The path of a URL with an origin is read after the authority. -/
theorem hierarchy_origin {scheme : ByteString} (hscheme : scheme ≠ [])
    (hrooted : path = [] ∨ path.head? = some slash) (hpath : percent ∉ path) :
    hierarchy parseAuthority scheme (slash :: slash :: (origin.authority ++ path)) =
      if parseAuthority origin.authority then some path else none := by
  have hauthority : ∀ byte ∈ origin.authority, decide (byte ≠ slash) = true :=
    fun byte hbyte => decide_eq_true (origin.authority_ne byte hbyte).1
  have htake : path.takeWhile (· ≠ slash) = [] ∧ path.dropWhile (· ≠ slash) = path := by
    cases path with
    | nil => exact ⟨rfl, rfl⟩
    | cons byte path =>
      have hbyte : byte = slash := by simpa using hrooted
      simp [hbyte]
  have hdrop : (slash :: slash :: (origin.authority ++ path)).drop 2 = origin.authority ++ path := rfl
  rw [hierarchy, if_neg (by simp), if_pos ⟨⟨_, rfl⟩, .inl hscheme⟩]
  simp only [hdrop, List.takeWhile_append_of_pos hauthority,
    List.dropWhile_append_of_pos hauthority, htake, List.append_nil, decode_of_notMem hpath]

/-- What `url.Parse` reads from a URL with an origin and an unescaped path. -/
theorem urlParse_origin (hrooted : path = [] ∨ path.head? = some slash) (h : Unescaped path) :
    urlParse parseAuthority (origin.bytes ++ path) =
      if !origin.authority.any isControl && parseAuthority origin.authority then some path
      else none := by
  have hplain (byte : UInt8) (hbyte : byte ∈ path) := not_special byte (h.bytes byte hbyte)
  have hbytes : origin.bytes ++ path =
      ascii (if origin.secure then "https://" else "http://") ++ (origin.authority ++ path) := by
    rw [Origin.bytes]
    cases origin.secure <;> rfl
  have hends : ∀ byte ∈ origin.authority ++ path, byte ≠ question ∧ byte ≠ hash := by
    intro byte hbyte
    have hends : endsPath byte = false := by
      rcases List.mem_append.mp hbyte with hbyte | hbyte
      · exact (origin.authority_ne byte hbyte).2
      · exact (hplain byte hbyte).2.1
    simpa [endsPath] using hends
  have hquestion : ∀ byte ∈ slash :: slash :: (origin.authority ++ path),
      decide (byte ≠ question) = true := by
    have hslash : decide (slash ≠ question) = true := by decide
    exact List.forall_mem_cons.mpr ⟨hslash, List.forall_mem_cons.mpr
      ⟨hslash, fun byte hbyte => decide_eq_true (hends byte hbyte).1⟩⟩
  have hhash : ∀ byte ∈ origin.bytes ++ path, decide (byte ≠ hash) = true := by
    rw [hbytes]
    refine List.forall_mem_append.mpr ⟨?_, fun byte hbyte => decide_eq_true (hends byte hbyte).2⟩
    cases origin.secure <;> decide +kernel
  have hcontrol : (origin.bytes ++ path).any isControl = origin.authority.any isControl := by
    have hpath : path.any isControl = false :=
      List.any_eq_false.mpr fun byte hbyte => by simp [(hplain byte hbyte).1]
    rw [hbytes, List.any_append, List.any_append, hpath, Bool.or_false]
    cases origin.secure <;> rfl
  have hscheme : ∃ scheme, scheme ≠ [] ∧ getScheme (origin.bytes ++ path) =
      some (scheme, slash :: slash :: (origin.authority ++ path)) := by
    rw [hbytes]
    cases origin.secure with
    | false => exact ⟨ascii "http", by decide, rfl⟩
    | true => exact ⟨ascii "https", by decide, rfl⟩
  have hstar : origin.bytes ++ path ≠ ascii "*" := by
    rw [hbytes]
    cases origin.secure <;> exact fun heq => absurd (List.cons.inj heq).1 (by decide)
  obtain ⟨scheme, hne, hscheme⟩ := hscheme
  rw [urlParse, List.takeWhile_eq_self_iff.mpr hhash, List.dropWhile_eq_nil_iff.mpr hhash, parse,
    hcontrol, if_neg hstar, hscheme]
  simp only [List.takeWhile_eq_self_iff.mpr hquestion]
  rw [hierarchy_origin parseAuthority origin hne hrooted fun hmem => (hplain _ hmem).2.2 rfl]
  cases origin.authority.any isControl <;> cases parseAuthority origin.authority <;> rfl

end Origins

end UrlParse
