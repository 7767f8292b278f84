import RepoManager.Client.Actions
import RepoManager.Client.Toasts
import RepoManager.Handler.Request
import RepoManager.Library.Json

/-!
# From an error of the server to a toast

An error text goes through four hands: `Handler.error` encodes it as a JSON object, axios presents
the body of the response as the type that the action asked for, the interceptor turns the data into
a string by its type at run time, and `addToastError` makes a toast of that.

The array buffers are decoded and the parsed values written again, so that both routes end in a
JSON text with the error. A blob is written as the empty object. `showsError_iff` gives the
routes and the texts that arrive.
-/

namespace RepoManager

/-- The bytes of a body; the object of an error text is encoded with a line break after it. -/
def Body.bytes : Body → ByteString
  | .empty => []
  | .error err =>
    0x7b :: (Json.encodeString (ascii "error") ++
      0x3a :: (Json.encodeString err ++ 0x7d :: ascii "\n"))
  | .data bytes => bytes

/-- The byte order mark in UTF-8. -/
def byteOrderMark : ByteString := [0xef, 0xbb, 0xbf]

/-- What the browser provides: the decoder of UTF-8, and how a number of JSON is shown. -/
structure Browser where
  decode : ByteString → ByteString
  decode_valid : ∀ text, Utf8.Valid text → ¬ byteOrderMark <+: text → decode text = text
  showNumber : ByteString → ByteString

/-- `responseType` of a request to axios. -/
inductive ResponseType where
  | default
  | arraybuffer
  | blob
  deriving DecidableEq

/-- `error.response.data`, by its type at run time. -/
inductive ResponseData where
  | arrayBuffer (bytes : ByteString)
  | blob (bytes : ByteString)
  | value (value : Json.Value)
  | text (text : ByteString)

/-- The actions that send a request whose error becomes a toast. -/
inductive SendingAction where
  | foldersLoad
  | dataLoad (folder : ByteString)
  | uploadingFile (folder file : ByteString)
  | downloadingFile (folder filename : ByteString)
  | repoReindexes
  deriving DecidableEq

/-- What an action asks axios for. -/
def SendingAction.responseType : SendingAction → ResponseType
  | .foldersLoad => .arraybuffer
  | .dataLoad _ => .arraybuffer
  | .uploadingFile _ _ => .arraybuffer
  | .downloadingFile _ _ => .blob
  | .repoReindexes => .default

/-- What an action dispatches when its request is rejected, given the message of the toast. -/
def SendingAction.rejected : SendingAction → ByteString → List Action
  | .foldersLoad => actionFoldersLoad.rejected
  | .dataLoad folder => (actionDataLoad folder).rejected
  | .uploadingFile folder file => (uploadThunk folder file).rejected
  | .downloadingFile folder filename => (downloadThunk folder filename).rejected
  | .repoReindexes => actionRepoReindexes.rejected

/-- The action that asks for a blob. -/
def SendingAction.IsDownload (action : SendingAction) : Prop := action.responseType = .blob

section Receive

variable (browser : Browser)

/-- The data that axios makes of a body; without a response type it parses JSON where it can. -/
def responseData (body : ByteString) : ResponseType → ResponseData
  | .arraybuffer => .arrayBuffer body
  | .blob => .blob body
  | .default =>
    match Json.parse (browser.decode body) with
    | some value => .value value
    | none => .text (browser.decode body)

/-- The response interceptor on the data of an error. A blob has no properties to write, and
`typeof null` is `object`. -/
def intercept : ResponseData → ResponseData
  | .arrayBuffer bytes => .text (browser.decode bytes)
  | .blob _ => .text (Json.stringify browser.showNumber (.object []))
  | .value (.object members) => .text (Json.stringify browser.showNumber (.object members))
  | .value (.array items) => .text (Json.stringify browser.showNumber (.array items))
  | .value .null => .text (Json.stringify browser.showNumber .null)
  | data => data

/-- The data as a string, when it is one. -/
def ResponseData.string? : ResponseData → Option ByteString
  | .text data => some data
  | .value (.string data) => some data
  | _ => none

/-- `validateStatus` -/
def validateStatus (status : ℕ) : Bool := 200 ≤ status ∧ status < 300

/-- What an action dispatches for a response that is an error; `none` for any other response, and
for data that is no string. -/
def SendingAction.dispatched (action : SendingAction) (response : Response) :
    Option (List Action) :=
  if validateStatus response.status then none
  else
    (intercept browser (responseData browser response.body.bytes action.responseType)).string?.map
      fun data => action.rejected (Toasts.errorToast (.response data)).message

end Receive

/-- The toasts among some actions. -/
def toastsOf (actions : List Action) : List Toast :=
  actions.filterMap fun
    | .toast toast => some toast
    | _ => none

/-- The message is a JSON text whose field `error` is this text. -/
def IsErrorText (err message : ByteString) : Prop :=
  ∃ value, Json.parse message = some value ∧
    Json.field (ascii "error") value = some (.string err)

/-- One toast is dispatched, and it shows the error. -/
def ShowsError (err : GoError) (dispatched : Option (List Action)) : Prop :=
  ∃ actions message, dispatched = some actions ∧ toastsOf actions = [⟨message, true⟩] ∧
    IsErrorText err message

/-- Every action dispatches one toast for a rejection. -/
theorem toastsOf_rejected (action : SendingAction) (message : ByteString) :
    toastsOf (action.rejected message) = [⟨message, true⟩] := by
  cases action <;> rfl

/-- A message that holds a text under `error` shows that text and no other. -/
theorem isErrorText_iff {message content err : ByteString}
    (h : Json.parse message = some (.object [(ascii "error", .string content)])) :
    IsErrorText err message ↔ content = err := by
  have hfield : Json.field (ascii "error")
      (.object [(ascii "error", .string content)]) = some (.string content) := by
    simp [Json.field]
  constructor
  · rintro ⟨value, hvalue, herr⟩
    obtain rfl := Option.some.inj (h.symm.trans hvalue)
    rw [hfield, Option.some.injEq, Json.Value.string.injEq] at herr
    exact herr
  · rintro rfl
    exact ⟨_, h, hfield⟩

/-- The empty object shows no error. -/
theorem not_isErrorText_empty (browser : Browser) (err : ByteString) :
    ¬ IsErrorText err (Json.stringify browser.showNumber (.object [])) := by
  rintro ⟨value, hvalue, herr⟩
  have hempty : Json.parse (Json.stringify browser.showNumber (.object [])) =
      some (.object []) := rfl
  obtain rfl := Option.some.inj (hempty.symm.trans hvalue)
  cases herr

section Body

variable (err : GoError)

/-- The name of the only member is ASCII. -/
theorem repaired_error : Utf8.repaired (ascii "error") = ascii "error" := by decide +kernel

/-- The body of an error is a JSON text with the error text, repaired. -/
theorem parse_body : Json.parse (Body.error err).bytes =
    some (.object [(ascii "error", .string (Utf8.repaired err))]) := by
  have hname := Json.literalOf_encodeString (ascii "error")
  rw [repaired_error] at hname
  exact Json.parse_member hname (Json.literalOf_encodeString err) (by decide +kernel)

/-- The body of an error decodes to itself. -/
theorem decode_body (browser : Browser) :
    browser.decode (Body.error err).bytes = (Body.error err).bytes := by
  have hopen : Utf8.Valid [0x7b] := by decide
  have hcolon : Utf8.Valid [0x3a] := by decide
  have hclose : Utf8.Valid (0x7d :: ascii "\n") := by decide +kernel
  refine browser.decode_valid _ ?_ ?_
  · exact hopen.append ((Json.valid_encodeString _).append
      (hcolon.append ((Json.valid_encodeString err).append hclose)))
  · intro hmark
    exact absurd (List.cons_prefix_cons.mp hmark).1 (by decide)

/-- The parsed body, written again, is a JSON text with the same error text. -/
theorem parse_stringify (content : ByteString) (browser : Browser) :
    Json.parse (Json.stringify browser.showNumber
        (.object [(ascii "error", .string content)])) =
      some (.object [(ascii "error", .string content)]) := by
  have hspace : Json.skipSpace [] = [] := rfl
  have hparse := Json.parse_member (Json.literalOf_quoteJSONString (ascii "error"))
    (Json.literalOf_quoteJSONString content) hspace
  rw [← hparse]
  simp [Json.stringify, Json.stringifyMembers]

/-- The message of the toast, for an action that asks for no blob. -/
theorem exists_message (browser : Browser) {action : SendingAction} {status : ℕ}
    (hstatus : validateStatus status = false) (hdownload : ¬ action.IsDownload) :
    ∃ message, action.dispatched browser ⟨status, none, .error err⟩ =
        some (action.rejected message) ∧
      Json.parse message = some (.object [(ascii "error", .string (Utf8.repaired err))]) := by
  rw [SendingAction.dispatched, if_neg (by simp [hstatus])]
  match htype : action.responseType with
  | .arraybuffer =>
    refine ⟨(Body.error err).bytes, ?_, parse_body err⟩
    rw [responseData, intercept, decode_body]
    rfl
  | .blob => exact absurd htype hdownload
  | .default =>
    refine ⟨_, ?_, parse_stringify (Utf8.repaired err) browser⟩
    simp only [responseData, decode_body, parse_body]
    rfl

end Body

/-- The error text reaches the user exactly when the action asks for no blob and the text is
valid UTF-8. -/
theorem showsError_iff (browser : Browser) (action : SendingAction) (err : GoError) {status : ℕ}
    (hstatus : 400 ≤ status) :
    ShowsError err (action.dispatched browser ⟨status, none, .error err⟩) ↔
      ¬ action.IsDownload ∧ Utf8.Valid err := by
  have hinvalid : validateStatus status = false := by
    rw [validateStatus, decide_eq_false_iff_not]
    omega
  by_cases hdownload : action.IsDownload
  · refine iff_of_false ?_ fun h => h.1 hdownload
    rintro ⟨actions, message, hdispatched, htoasts, herr⟩
    rw [SendingAction.dispatched, if_neg (by simp [hinvalid]), hdownload] at hdispatched
    obtain rfl := Option.some.inj hdispatched
    rw [toastsOf_rejected, List.singleton_inj, Toast.mk.injEq] at htoasts
    rw [← htoasts.1] at herr
    exact not_isErrorText_empty browser err herr
  · obtain ⟨message, hdispatched, hparse⟩ := exists_message err browser hinvalid hdownload
    rw [hdispatched, and_iff_right hdownload, ← Utf8.repaired_eq_iff, ← isErrorText_iff hparse]
    constructor
    · rintro ⟨actions, shown, heq, htoasts, herr⟩
      obtain rfl := Option.some.inj heq
      rw [toastsOf_rejected, List.singleton_inj, Toast.mk.injEq] at htoasts
      rw [htoasts.1]
      exact herr
    · exact fun herr => ⟨_, message, rfl, toastsOf_rejected action message, herr⟩

/-- A browser that drops a byte order mark and repairs what is not UTF-8. -/
def sampleBrowser : Browser where
  decode text := if byteOrderMark <+: text then Utf8.repaired (text.drop 3) else Utf8.repaired text
  decode_valid text hvalid hmark := by
    rw [if_neg hmark]
    exact (Utf8.repaired_eq_iff text).mpr hvalid
  showNumber text := text

/-- The error of an index run is shown, with its markup and its quotes. -/
theorem sample_showsError_iff :
    ShowsError (ascii "a <b> & \"c\"")
      (SendingAction.repoReindexes.dispatched sampleBrowser
        ⟨500, none, .error (ascii "a <b> & \"c\"")⟩) :=
  (showsError_iff sampleBrowser .repoReindexes _ (by decide)).mpr ⟨nofun, by decide +kernel⟩

/-- The error of a download is not shown: its toast is the empty object. -/
theorem sample_not_showsError :
    ¬ ShowsError (ascii "not authenticated")
      ((SendingAction.downloadingFile (ascii "noarch") (ascii "a.rpm")).dispatched sampleBrowser
        ⟨500, none, .error (ascii "not authenticated")⟩) := by
  rintro ⟨actions, message, hdispatched, htoasts, herr⟩
  obtain rfl := Option.some.inj hdispatched
  rw [toastsOf_rejected, List.singleton_inj, Toast.mk.injEq] at htoasts
  rw [← htoasts.1] at herr
  exact not_isErrorText_empty sampleBrowser _ herr

end RepoManager
