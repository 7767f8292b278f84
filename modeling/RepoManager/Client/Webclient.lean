import RepoManager.Library.UrlPath

/-!
# The requests of the client

`www/src/components/webclient`: how the URL of a request is put together, and the requests that
the actions send with it. A string is its UTF-8 bytes.
-/

open LexicalPath UrlPath

namespace RepoManager

/-- One part of `pathJoin`: at most one separator is taken off either end. -/
def trimSep (part : ByteString) : ByteString :=
  let part2 := if part.getLast? = some slash then part.dropLast else part
  if part2.head? = some slash then part2.tail else part2

/-- `pathJoin`, with its default separator. -/
def pathJoin (parts : List ByteString) : ByteString := [slash].intercalate (parts.map trimSep)

/-- `appUrl`, with the global `URL_PREFIX`. -/
def appUrl (urlPrefix path : ByteString) : ByteString := pathJoin [urlPrefix, path]

/-- A request of the client. -/
inductive ClientRequest where
  | folders
  | reindex
  | files (folder : ByteString)
  | upload (folder file : ByteString)
  | download (folder filename : ByteString)
  | info (folderId fileId : ByteString)
  deriving DecidableEq

/-- The path that is interpolated for a request. -/
def ClientRequest.path : ClientRequest → ByteString
  | .folders => ascii "/folders"
  | .reindex => ascii "/files/reindex"
  | .files folder => ascii "/files/" ++ folder
  | .upload folder _ => ascii "/files/" ++ folder
  | .download folder filename => ascii "/files/" ++ folder ++ ascii "/" ++ filename
  | .info folderId fileId => ascii "/files/" ++ folderId ++ ascii "/" ++ fileId ++ ascii "/info"

/-- The URL that is passed to axios. -/
def ClientRequest.url (urlPrefix : ByteString) (request : ClientRequest) : ByteString :=
  appUrl urlPrefix request.path

/-- The white space and line terminators of ASCII. -/
def isSpace (byte : UInt8) : Bool := (0x09 ≤ byte ∧ byte ≤ 0x0d) ∨ byte = 0x20

/-- `String.prototype.trim`, on ASCII text. -/
def trim (text : ByteString) : ByteString := (text.dropWhile isSpace).rdropWhile isSpace

/-- What `removeAuthCookie` assigns to `document.cookie`. -/
def removeAuthCookie (repoName cookiePath : ByteString) : ByteString :=
  repoName ++ (ascii "=;SameSite=None;Secure;Max-Age=0;path=" ++ cookiePath)

/-- `isAuthCookie`, on the value of `document.cookie`. -/
def isAuthCookie (repoName cookie : ByteString) : Bool :=
  (cookie.splitOn 0x3b).any fun item => (repoName ++ ascii "=").isPrefixOf (trim item)

/-- Without a cookie there is none of the repository. -/
theorem isAuthCookie_nil {repoName : ByteString} : isAuthCookie repoName [] = false := by
  have hprefix : (repoName ++ ascii "=").isPrefixOf [] = false := by
    cases repoName <;> rfl
  simp [isAuthCookie, trim, hprefix]

/-- A cookie of the repository that comes first is found. -/
theorem isAuthCookie_append {repoName : ByteString}
    (hname : ∀ byte ∈ repoName, isUnreserved byte) (hne : repoName ≠ []) (rest : ByteString) :
    isAuthCookie repoName (repoName ++ 0x3d :: rest) = true := by
  have hbytes (byte : UInt8) : isUnreserved byte → byte ≠ 0x3b ∧ isSpace byte = false := by
    apply forall_byte byte
    decide +kernel
  have hstart (text : ByteString) (h : 0x3b ∉ text) : 0x3b ∉ repoName ++ 0x3d :: text := by
    have hsign : (0x3b : UInt8) ≠ 0x3d := by decide
    simp only [List.mem_append, List.mem_cons, hsign, h, or_false]
    exact fun hmem => (hbytes _ (hname _ hmem)).1 rfl
  have hfirst : ∃ text others, (repoName ++ 0x3d :: rest).splitOn 0x3b =
      (repoName ++ 0x3d :: text) :: others := by
    by_cases hmem : 0x3b ∈ rest
    · obtain ⟨text, after, rfl, htext⟩ := List.eq_append_cons_of_mem hmem
      refine ⟨text, after.splitOn 0x3b, ?_⟩
      rw [← List.splitOn_append_cons_self_of_not_mem (hstart text htext)]
      simp
    · exact ⟨rest, [], List.splitOn_eq_singleton (hstart rest hmem)⟩
  obtain ⟨text, others, hfirst⟩ := hfirst
  have htrim : trim (repoName ++ 0x3d :: text) = repoName ++ 0x3d :: text.rdropWhile isSpace := by
    obtain ⟨byte, name, rfl⟩ := List.exists_cons_of_ne_nil hne
    have hbyte := (hbytes byte (hname byte List.mem_cons_self)).2
    rw [trim, List.cons_append, List.dropWhile_cons_of_neg (by simp [hbyte]), ← List.cons_append,
      rdropWhile_append_cons (by decide)]
  rw [isAuthCookie, hfirst, List.any_cons, htrim, Bool.or_eq_true]
  refine .inl (List.isPrefixOf_iff_prefix.mpr ⟨text.rdropWhile isSpace, ?_⟩)
  rw [List.append_assoc]
  rfl

/-- A prefix without separator at its ends is followed by the path, without its last slash. -/
theorem appUrl_rooted {urlPrefix : ByteString} (hhead : urlPrefix.head? ≠ some slash)
    (hlast : urlPrefix.getLast? ≠ some slash) (path : ByteString) :
    appUrl urlPrefix (slash :: path) =
      urlPrefix ++ slash :: if path.getLast? = some slash then path.dropLast else path := by
  have hprefix : trimSep urlPrefix = urlPrefix := by simp [trimSep, hhead, hlast]
  have htrim : trimSep (slash :: path) =
      if path.getLast? = some slash then path.dropLast else path := by
    cases path with
    | nil => rfl
    | cons byte rest =>
      rw [trimSep, List.getLast?_cons_cons]
      split <;> rfl
  rw [appUrl, pathJoin, List.map_cons, List.map_singleton, hprefix, htrim]
  simp [List.intercalate]

/-- A prefix without separator at its ends is followed by a path that ends in a name. -/
theorem appUrl_eq {urlPrefix path : ByteString} (hhead : urlPrefix.head? ≠ some slash)
    (hlast : urlPrefix.getLast? ≠ some slash) (hpath : path.getLast? ≠ some slash) :
    appUrl urlPrefix (slash :: path) = urlPrefix ++ slash :: path := by
  rw [appUrl_rooted hhead hlast, if_neg hpath]

end RepoManager
