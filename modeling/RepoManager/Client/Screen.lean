import RepoManager.Client.TreeView
import RepoManager.Library.Transition

/-!
# The screen, and what it asks the server for

The controls of the client one after the other, each response arriving before the next action of
the user. A download and the details panel put a folder and a file into one request: the folder
from the selected node, the file from the selected row.

The log records requests and reports. A report is one name in a file list or in the reply to an
upload, with the object of the grid that was created for it. `Reported` says that every request
for a file comes after a report of this name for this folder.
-/

namespace RepoManager

/-- A name that the server reported for a folder, and the row it became. -/
structure Report where
  folder : ByteString
  name : ByteString
  row : Ref
  deriving DecidableEq

/-- What happens between the client and the server. -/
inductive Event where
  | request (request : ClientRequest)
  | report (report : Report)
  deriving DecidableEq

/-- The client; the dependencies of the effect of the details panel at its last run, when the
panel is shown; and the log, the last event first. -/
structure Screen where
  client : Client
  panel : Option (Option ByteString × Option ByteString)
  log : List Event

/-- An action of the user, with the outcome of the request it leads to, if any. Uploads are
possible while the session cookie is there; a file is given by its name. -/
inductive UserAction where
  | selectNode (node : Ref) (outcome : Except ByteString (List ByteString))
  | clickRow (row : Ref)
  | refresh (outcome : Except ByteString (List ByteString))
  | upload (file : Option ByteString) (outcome : Except ByteString ByteString)
  | filter (text : ByteString)
  | download (outcome : Except ByteString Unit)
  | details

namespace Screen

variable (bundle : Bundle)

/-- A request is sent. -/
def send (screen : Screen) (request : ClientRequest) : Screen :=
  { screen with log := .request request :: screen.log }

/-- Names are reported for a folder; their rows are the last ones on the heap. -/
def receive (screen : Screen) (folder : ByteString) (names : List ByteString) : Screen :=
  let first := screen.client.heap.rows.length - names.length
  let reports := (names.zipIdx first).map fun entry => Report.mk folder entry.1 entry.2
  { screen with log := reports.reverse.map Event.report ++ screen.log }

/-- Actions are dispatched. -/
def dispatch (screen : Screen) (actions : List Action) : Screen :=
  { screen with client := screen.client.dispatchAll bundle.normalModule actions }

/-- The effect of the details panel: request the metadata, when both identifiers are there. -/
def effect (screen : Screen) : Screen :=
  match screen.client.folderId, screen.client.fileId with
  | some folderId, some fileId => screen.send (.info folderId fileId)
  | _, _ => screen

/-- Render after a change of the store: the effect runs when its dependencies have changed. -/
def render (screen : Screen) : Screen :=
  let deps := (screen.client.folderId, screen.client.fileId)
  if screen.panel.isNone ∨ screen.panel = some deps then screen
  else { screen with panel := some deps }.effect

/-- The outcome of a request arrives; `reported` are the names of files in a reply. -/
def settle {Reply : Type} (screen : Screen) (folder : ByteString) (thunk : Thunk Reply)
    (outcome : Except ByteString Reply) (reported : Reply → List ByteString) : Screen :=
  let settled := screen.dispatch bundle (thunk.settle outcome)
  match outcome with
  | .ok reply => (settled.receive folder (reported reply)).render
  | .error _ => settled.render

/-- A thunk is dispatched, and the outcome of its request arrives. -/
def call {Reply : Type} (screen : Screen) (folder : ByteString) (thunk : Thunk Reply)
    (outcome : Except ByteString Reply) (reported : Reply → List ByteString) : Screen :=
  ((screen.dispatch bundle thunk.before).send thunk.request).render.settle bundle folder thunk
    outcome reported

/-- One action of the user; `none` where its control is disabled or its handler throws. -/
def step (screen : Screen) : UserAction → Option Screen
  | .selectNode node outcome =>
    let (client, load) := screen.client.onSelecRow bundle node
    let screen := { screen with client }
    match load with
    | some folder =>
      let thunk := actionDataLoad folder
      some ((screen.send thunk.request).render.settle bundle folder thunk outcome id)
    | none => some screen.render
  | .clickRow row =>
    if row ∈ screen.client.filteredItems bundle then
      some (screen.dispatch bundle [actionSelectRow row]).render
    else none
  | .refresh outcome =>
    match screen.client.folderId with
    | some folder =>
      if screen.client.folderEnabled then
        some (screen.call bundle folder (actionDataLoad folder) outcome id)
      else none
    | none => none
  | .upload file outcome =>
    match screen.client.folderId with
    | some folder =>
      if screen.client.folderEnabled then
        match actionUploadingFile folder file with
        | .inl actions => some (screen.dispatch bundle actions).render
        | .inr thunk => some (screen.call bundle folder thunk outcome fun name => [name])
      else none
    | none => none
  | .filter text =>
    if screen.client.folderEnabled then
      some (screen.dispatch bundle [actionFilteredRows text]).render
    else none
  | .download outcome =>
    match screen.client.folderId, screen.client.fileId with
    | some folder, some filename =>
      match actionDownloadingFile folder filename with
      | .inl actions => some (screen.dispatch bundle actions).render
      | .inr thunk => some (screen.call bundle folder thunk outcome fun _ => [])
    | _, _ => none
  | .details =>
    if screen.panel.isSome then some { screen with panel := none }
    else
      let deps := (screen.client.folderId, screen.client.fileId)
      some { screen with panel := some deps }.effect

/-- The screen as a machine. -/
def machine : Machine Screen UserAction := ⟨step bundle⟩

end Screen

/-- A request for a file comes after a report of its name for its folder. -/
def Asked (older : List Event) : ClientRequest → Prop
  | .download folder name => ∃ row, Event.report ⟨folder, name, row⟩ ∈ older
  | .info folder name => ∃ row, Event.report ⟨folder, name, row⟩ ∈ older
  | _ => True

/-- Every request for a file in a log comes after a report of its name for its folder. -/
def Reported : List Event → Prop
  | [] => True
  | .request request :: older => Asked older request ∧ Reported older
  | .report _ :: older => Reported older

namespace Screen

/-- A row came with a report for the folder that is selected. -/
def Matched (screen : Screen) (row : Ref) : Prop :=
  ∃ report, Event.report report ∈ screen.log ∧ report.row = row ∧
    screen.client.folderId = some report.folder

/-- The selected row, if any, is not the object `NormalModule`. -/
def RowSelected (bundle : Bundle) (screen : Screen) : Prop :=
  ∀ row, screen.client.gridReduser.row = some row → bundle.normalModule ≠ some row

/-- The action makes the client dispatch `GRID_REFRESH_ROWS`. -/
def Refreshes (screen : Screen) : UserAction → Prop
  | .upload none _ => True
  | .upload (some _) (.ok _) => True
  | .download _ => screen.client.folderId = some [] ∨ screen.client.fileId = some []
  | _ => False

/-- A row is clicked only in the folder it was reported for. Where the bundle has an object
`NormalModule`, it is neither downloaded nor shown in the details panel. -/
structure Careful (bundle : Bundle) (screen : Screen) (action : UserAction) : Prop where
  click : ∀ row, action = .clickRow row → screen.Matched row
  refresh : screen.Refreshes action → screen.panel.isSome → bundle.normalModule = none
  download : ∀ outcome, action = .download outcome → screen.RowSelected bundle
  details : action = .details → screen.panel = none → screen.RowSelected bundle

/-- What holds of the screen between the actions of a careful user. -/
structure Inv (bundle : Bundle) (screen : Screen) : Prop where
  named : ∀ report, Event.report report ∈ screen.log →
    screen.client.heap.rowName report.row = some report.name
  bound : ∀ row, screen.client.gridReduser.row = some row →
    bundle.normalModule ≠ some row ∨ screen.panel.isSome → screen.Matched row
  reported : Reported screen.log

/-! ## What keeps the invariant -/

section Keeps

variable {bundle : Bundle} {screen : Screen}

/-- Rendering does nothing, or runs the effect of the panel with new dependencies. -/
theorem render_cases (screen : Screen) : screen.render = screen ∨ screen.panel.isSome ∧
    screen.render = { screen with
      panel := some (screen.client.folderId, screen.client.fileId) : Screen }.effect := by
  unfold Screen.render
  simp only
  split
  · exact .inl rfl
  · next hpanel =>
    rw [not_or] at hpanel
    exact .inr ⟨Option.isSome_iff_ne_none.mpr (by simpa using hpanel.1), rfl⟩

/-- Rendering neither shows nor hides the panel. -/
theorem panel_render (screen : Screen) : screen.render.panel.isSome = screen.panel.isSome := by
  have heffect : ∀ other : Screen, other.effect.panel = other.panel := by
    intro other
    unfold Screen.effect
    split <;> rfl
  rcases screen.render_cases with heq | ⟨hpanel, heq⟩
  · rw [heq]
  · rw [heq, heffect, hpanel]
    rfl

/-- The folder depends on the tree slice and the nodes only. -/
theorem folderId_congr {client after : Client} (hnodes : after.heap.nodes = client.heap.nodes)
    (hrow : after.treeReduser.row = client.treeReduser.row) :
    after.folderId = client.folderId := by
  rw [Client.folderId, Client.selectedNode, hnodes, hrow]
  rfl

/-- A match does not depend on the requests in the log. -/
theorem Matched.of_reports {other : Screen} {row : Ref} (h : screen.Matched row)
    (hlog : ∀ report, Event.report report ∈ screen.log → Event.report report ∈ other.log)
    (hfolder : other.client.folderId = screen.client.folderId) : other.Matched row := by
  obtain ⟨report, hreport, hrow, hname⟩ := h
  exact ⟨report, hlog report hreport, hrow, hfolder.trans hname⟩

/-- A request is sent that is no file's, or of a reported one. -/
theorem Inv.send (h : Inv bundle screen) (request : ClientRequest)
    (hasked : Asked screen.log request) : Inv bundle (screen.send request) where
  named report hreport := h.named report ((List.mem_cons.mp hreport).resolve_left nofun)
  bound row hrow hvisible :=
    (h.bound row hrow hvisible).of_reports (fun _ hreport => List.mem_cons_of_mem _ hreport) rfl
  reported := ⟨hasked, h.reported⟩

/-- The selected row of a matched screen was reported for the selected folder. -/
theorem Inv.asked (h : Inv bundle screen) {folder name : ByteString}
    (hfolder : screen.client.folderId = some folder) (hfile : screen.client.fileId = some name)
    (hmatched : ∀ row, screen.client.gridReduser.row = some row → screen.Matched row) :
    ∃ row, Event.report ⟨folder, name, row⟩ ∈ screen.log := by
  obtain ⟨row, hrow, hname⟩ := Option.bind_eq_some_iff.mp hfile
  obtain ⟨report, hreport, rfl, hreportFolder⟩ := hmatched row hrow
  rw [h.named report hreport] at hname
  rw [hfolder] at hreportFolder
  obtain rfl := Option.some.inj hname
  obtain rfl := Option.some.inj hreportFolder
  exact ⟨report.row, hreport⟩

/-- The effect runs while the panel is shown. -/
theorem Inv.effect (h : Inv bundle screen) (hpanel : screen.panel.isSome) :
    Inv bundle screen.effect := by
  unfold Screen.effect
  split
  · next folder name hfolder hname =>
    exact h.send _ (h.asked hfolder hname fun row hrow => h.bound row hrow (.inr hpanel))
  · exact h

/-- Rendering keeps the invariant. -/
theorem Inv.render (h : Inv bundle screen) : Inv bundle screen.render := by
  rcases screen.render_cases with heq | ⟨hpanel, heq⟩
  · rwa [heq]
  · rw [heq]
    apply Inv.effect _ rfl
    exact ⟨h.named, fun row hrow _ => h.bound row hrow (.inr hpanel), h.reported⟩

/-- A change of the client that keeps the names, after which the selected row is matched. -/
theorem Inv.of_client (h : Inv bundle screen) {client : Client}
    (hnames : ∀ row name, screen.client.heap.rowName row = some name →
      client.heap.rowName row = some name)
    (hbound : ∀ row, client.gridReduser.row = some row →
      bundle.normalModule ≠ some row ∨ screen.panel.isSome →
        Matched { screen with client } row) : Inv bundle { screen with client } where
  named report hreport := hnames _ _ (h.named report hreport)
  bound := hbound
  reported := h.reported

/-- Reports ask for nothing. -/
theorem reported_append {log : List Event} (h : Reported log) (reports : List Report) :
    Reported (reports.map Event.report ++ log) := by
  induction reports with
  | nil => exact h
  | cons report rest ih => exact ih

/-- Reports are received for the last objects of the heap. -/
theorem Inv.receive (h : Inv bundle screen) (folder : ByteString) {names : List ByteString}
    (hnames : ∀ index name, names[index]? = some name → screen.client.heap.rowName
      (screen.client.heap.rows.length - names.length + index) = some name) :
    Inv bundle (screen.receive folder names) where
  named report hreport := by
    rcases List.mem_append.mp hreport with hnew | hold
    · obtain ⟨new, hmem, heq⟩ := List.mem_map.mp hnew
      obtain rfl := Event.report.inj heq
      obtain ⟨entry, hentry, rfl⟩ := List.mem_map.mp (List.mem_reverse.mp hmem)
      obtain ⟨hle, hname⟩ := List.mk_mem_zipIdx_iff_le_and_getElem?_sub.mp hentry
      have hrow := hnames _ _ hname
      rwa [Nat.add_sub_cancel' hle] at hrow
    · exact h.named report hold
  bound row hrow hvisible :=
    (h.bound row hrow hvisible).of_reports (fun _ hreport => List.mem_append_right _ hreport) rfl
  reported := reported_append h.reported _

/-- After a change of the client no row is selected. -/
theorem Inv.of_row_none (h : Inv bundle screen) {client : Client}
    (hnames : ∀ row name, screen.client.heap.rowName row = some name →
      client.heap.rowName row = some name)
    (hrow : client.gridReduser.row = none) : Inv bundle { screen with client } := by
  refine h.of_client hnames fun row heq _ => ?_
  change client.gridReduser.row = some row at heq
  rw [hrow] at heq
  exact nomatch heq

/-- After a change of the client the same row and the same node are selected. -/
theorem Inv.of_row_eq (h : Inv bundle screen) {client : Client}
    (hnames : ∀ row name, screen.client.heap.rowName row = some name →
      client.heap.rowName row = some name)
    (hrow : client.gridReduser.row = screen.client.gridReduser.row)
    (hfolder : client.folderId = screen.client.folderId) : Inv bundle { screen with client } := by
  refine h.of_client hnames fun row heq hvisible => ?_
  exact (h.bound row (hrow.symm.trans heq) hvisible).of_reports (fun _ hreport => hreport) hfolder

/-- `GRID_REFRESH_ROWS` selects the object `NormalModule`, which the panel does not show. -/
theorem Inv.of_row_normalModule (h : Inv bundle screen) {client : Client}
    (hnames : ∀ row name, screen.client.heap.rowName row = some name →
      client.heap.rowName row = some name)
    (hrow : client.gridReduser.row = bundle.normalModule)
    (hpanel : screen.panel.isSome → bundle.normalModule = none) :
    Inv bundle { screen with client } := by
  refine h.of_client hnames fun row heq hvisible => ?_
  change client.gridReduser.row = some row at heq
  rw [hrow] at heq
  rcases hvisible with hne | hsome
  · exact absurd heq hne
  · rw [hpanel hsome] at heq
    exact nomatch heq

/-- `GRID_REFRESH_ROWS` is dispatched. -/
theorem Inv.refreshRows (h : Inv bundle screen)
    (hpanel : screen.panel.isSome → bundle.normalModule = none) :
    Inv bundle (screen.dispatch bundle [.grid .refreshRows]) :=
  h.of_row_normalModule (fun row _ hname => (Heap.rowName_unselectRow _ _ row).trans hname) rfl
    hpanel

end Keeps

/-! ## What the thunks dispatch -/

section Thunks

variable {bundle : Bundle} {screen : Screen}

/-- A settled load: no row is selected, or nothing has changed. -/
theorem Inv.settle_dataLoad (h : Inv bundle screen) (folder : ByteString)
    (outcome : Except ByteString (List ByteString)) :
    Inv bundle (screen.settle bundle folder (actionDataLoad folder) outcome id) := by
  cases outcome with
  | error message => exact Inv.render ⟨h.named, h.bound, h.reported⟩
  | ok names =>
    let heap := screen.client.heap.unselectRow screen.client.gridReduser.row
    apply Inv.render
    apply Inv.receive
    · apply h.of_row_none _ rfl
      intro row name hname
      exact heap.rowName_newRows (names.map freshRow)
        ((screen.client.heap.rowName_unselectRow _ row).trans hname)
    · intro index name hname
      exact rowName_freshRow heap hname

/-- A settled upload: the new row is on the heap and `NormalModule` is selected, or nothing has
changed. -/
theorem Inv.settle_upload (h : Inv bundle screen) (folder file : ByteString)
    (outcome : Except ByteString ByteString)
    (hpanel : ∀ name, outcome = .ok name → screen.panel.isSome → bundle.normalModule = none) :
    Inv bundle
      (screen.settle bundle folder (uploadThunk folder file) outcome fun name => [name]) := by
  cases outcome with
  | error message => exact Inv.render ⟨h.named, h.bound, h.reported⟩
  | ok name =>
    let row := screen.client.gridReduser.row
    let heap := (screen.client.heap.unselectRow row).newRows [freshRow name]
    apply Inv.render
    apply Inv.receive
    · apply h.of_row_normalModule _ rfl (hpanel name rfl)
      intro other otherName hname
      have hbefore := (screen.client.heap.rowName_unselectRow row other).trans hname
      exact (heap.rowName_unselectRow row other).trans (Heap.rowName_newRows _ _ hbefore)
    · intro index other hother
      change (heap.unselectRow row).rowName
        ((heap.unselectRow row).rows.length - 1 + index) = some other
      rw [Heap.rowName_unselectRow, Heap.length_unselectRow]
      exact rowName_freshRow (screen.client.heap.unselectRow row) hother

/-- A settled download. -/
theorem Inv.settle_download (h : Inv bundle screen) (folder filename : ByteString)
    (outcome : Except ByteString Unit) :
    Inv bundle
      (screen.settle bundle folder (downloadThunk folder filename) outcome fun _ => []) := by
  cases outcome with
  | error message => exact Inv.render ⟨h.named, h.bound, h.reported⟩
  | ok reply =>
    apply Inv.render
    apply Inv.receive
    · exact ⟨h.named, h.bound, h.reported⟩
    · intro index name hname
      exact nomatch hname

end Thunks

/-- A thunk whose request is no file's, or of a reported one, is called. -/
theorem Inv.call {bundle : Bundle} {screen : Screen} {Reply : Type} (h : Inv bundle screen)
    (folder : ByteString) (thunk : Thunk Reply) {outcome : Except ByteString Reply}
    {reported : Reply → List ByteString}
    (hbefore : thunk.before = [actionLoadingOn]) (hasked : Asked screen.log thunk.request)
    (hsettle : ∀ other : Screen, Inv bundle other → other.panel.isSome = screen.panel.isSome →
      Inv bundle (other.settle bundle folder thunk outcome reported)) :
    Inv bundle (screen.call bundle folder thunk outcome reported) := by
  have hdispatch : Inv bundle (screen.dispatch bundle thunk.before) := by
    rw [hbefore]
    exact ⟨h.named, h.bound, h.reported⟩
  apply hsettle
  · exact (hdispatch.send thunk.request hasked).render
  · exact panel_render _

/-! ## Runs -/

/-- One action of a careful user. -/
theorem inv_step {bundle : Bundle} {screen next : Screen} {action : UserAction}
    (h : Inv bundle screen) (hcareful : Careful bundle screen action)
    (hstep : step bundle screen action = some next) : Inv bundle next := by
  cases action with
  | selectNode node outcome =>
    rcases screen.client.onSelecRow_cases bundle node with heq | ⟨after, load, heq, hgrid, hrows⟩
    · simp only [step, heq] at hstep
      obtain rfl := Option.some.inj hstep
      exact h.render
    · have hafter : Inv bundle { screen with client := after } := by
        apply h.of_row_none
        · intro row name hname
          rwa [hrows]
        · rw [hgrid]
      simp only [step, heq] at hstep
      cases load with
      | none =>
        obtain rfl := Option.some.inj hstep
        exact hafter.render
      | some folder =>
        obtain rfl := Option.some.inj hstep
        have hsent := hafter.send (actionDataLoad folder).request trivial
        exact hsent.render.settle_dataLoad folder outcome
  | clickRow row =>
    simp only [step] at hstep
    split at hstep
    · obtain rfl := Option.some.inj hstep
      apply Inv.render
      apply h.of_client
      · intro other name hname
        exact (Heap.rowName_selectRow _ row other).trans
          ((Heap.rowName_unselectRow _ _ other).trans hname)
      · intro other hother _
        obtain rfl := Option.some.inj hother
        refine (hcareful.click row rfl).of_reports (fun _ hreport => hreport) ?_
        exact folderId_congr (screen.client.heap.nodes_unselectRow _) rfl
    · exact nomatch hstep
  | refresh outcome =>
    simp only [step] at hstep
    split at hstep
    · next folder hfolder =>
      split at hstep
      · obtain rfl := Option.some.inj hstep
        refine h.call folder (actionDataLoad folder) rfl trivial fun other hother _ => ?_
        exact hother.settle_dataLoad folder outcome
      · exact nomatch hstep
    · exact nomatch hstep
  | upload file outcome =>
    simp only [step] at hstep
    split at hstep
    · next folder hfolder =>
      split at hstep
      · cases file with
        | none =>
          obtain rfl := Option.some.inj hstep
          exact (h.refreshRows (hcareful.refresh trivial)).render
        | some file =>
          obtain rfl := Option.some.inj hstep
          refine h.call folder (uploadThunk folder file) rfl trivial fun other hother hpanel => ?_
          apply hother.settle_upload
          rintro name rfl hsome
          exact hcareful.refresh trivial (hpanel ▸ hsome)
      · exact nomatch hstep
    · exact nomatch hstep
  | filter text =>
    simp only [step] at hstep
    split at hstep
    · obtain rfl := Option.some.inj hstep
      exact Inv.render (h.of_row_eq (fun _ _ hname => hname) rfl rfl)
    · exact nomatch hstep
  | download outcome =>
    simp only [step] at hstep
    split at hstep
    · next folder filename hfolder hfile =>
      by_cases hempty : folder = [] ∨ filename = []
      · have hrefresh : screen.Refreshes (.download outcome) := by
          rw [Refreshes, hfolder, hfile, Option.some.injEq, Option.some.injEq]
          exact hempty
        simp only [actionDownloadingFile, if_pos hempty] at hstep
        obtain rfl := Option.some.inj hstep
        exact (h.refreshRows (hcareful.refresh hrefresh)).render
      · have hasked := h.asked hfolder hfile fun row hrow =>
          h.bound row hrow (.inl (hcareful.download outcome rfl row hrow))
        simp only [actionDownloadingFile, if_neg hempty] at hstep
        obtain rfl := Option.some.inj hstep
        refine h.call folder (downloadThunk folder filename) rfl hasked fun other hother _ => ?_
        exact hother.settle_download folder filename outcome
    · exact nomatch hstep
  | details =>
    simp only [step] at hstep
    split at hstep
    · obtain rfl := Option.some.inj hstep
      refine ⟨h.named, fun row hrow hvisible => ?_, h.reported⟩
      exact h.bound row hrow (.inl (hvisible.resolve_right nofun))
    · next hpanel =>
      obtain rfl := Option.some.inj hstep
      apply Inv.effect _ rfl
      refine ⟨h.named, fun row hrow _ => ?_, h.reported⟩
      exact h.bound row hrow (.inl (hcareful.details rfl (by simpa using hpanel) row hrow))

/-- In every run of a careful user, every file that is asked for was reported for the folder it is
asked for in. -/
theorem reported_of_careful (bundle : Bundle) (start last : Screen) (actions : List UserAction)
    (hlog : start.log = []) (hrow : start.client.gridReduser.row = none)
    (hrun : (machine bundle).run start actions = some last)
    (hcareful : (machine bundle).Along (Careful bundle) start actions) : Reported last.log := by
  have hstart : Inv bundle start := by
    refine ⟨?_, ?_, ?_⟩
    · rw [hlog]
      exact nofun
    · rw [hrow]
      exact nofun
    · rw [hlog]
      exact trivial
  have hlast : Inv bundle last := by
    apply (machine bundle).run_invariant_along _ hstart hrun hcareful
    intro screen action next h hcareful hstep
    exact inv_step h hcareful hstep
  exact hlast.reported

/-- The files of a folder are listed, the root is selected, and one of the rows is downloaded. -/
def sampleActions : List UserAction :=
  [.selectNode 1 (.ok [ascii "a.rpm"]), .selectNode 0 (.ok []), .clickRow 0, .download (.ok ())]

/-- The client asks for a file of the root, for which nothing was ever reported. -/
theorem sample_not_reported :
    ∃ last, (machine ⟨none, id⟩).run ⟨Client.sample, none, []⟩ sampleActions = some last ∧
      last.log = [.request (.download (ascii "kes") (ascii "a.rpm")),
        .report ⟨ascii "noarch", ascii "a.rpm", 0⟩, .request (.files (ascii "noarch"))] ∧
      ¬ Reported last.log := by
  have hlog : ¬ Reported [.request (.download (ascii "kes") (ascii "a.rpm")),
      .report ⟨ascii "noarch", ascii "a.rpm", 0⟩, .request (.files (ascii "noarch"))] := by
    rintro ⟨⟨row, hrow⟩, -⟩
    rcases List.mem_cons.mp hrow with heq | hrow
    · exact absurd (congrArg Report.folder (Event.report.inj heq))
        (show ascii "kes" ≠ ascii "noarch" by decide)
    · exact absurd (List.mem_singleton.mp hrow) nofun
  exact ⟨_, rfl, rfl, hlog⟩

/-- A row is downloaded in the folder it was listed for. -/
def carefulActions : List UserAction :=
  [.selectNode 1 (.ok [ascii "a.rpm"]), .clickRow 0, .download (.ok ())]

/-- The client asks for what was reported. -/
theorem sample_reported_of_careful :
    ∃ last, (machine ⟨none, id⟩).run ⟨Client.sample, none, []⟩ carefulActions = some last ∧
      Reported last.log := by
  have hcareful : (machine ⟨none, id⟩).Along (Careful ⟨none, id⟩) ⟨Client.sample, none, []⟩
      carefulActions := by
    refine ⟨⟨nofun, nofun, nofun, nofun⟩, fun listed hlisted => ?_⟩
    obtain rfl := Option.some.inj hlisted
    refine ⟨⟨?_, nofun, nofun, nofun⟩, fun clicked hclicked => ?_⟩
    · intro row hrow
      obtain rfl := UserAction.clickRow.inj hrow
      exact ⟨⟨ascii "noarch", ascii "a.rpm", 0⟩, List.mem_cons_self, rfl, rfl⟩
    · exact ⟨⟨nofun, fun _ _ => rfl, fun _ _ _ _ => nofun, nofun⟩, fun _ _ => trivial⟩
  exact ⟨_, rfl, reported_of_careful ⟨none, id⟩ ⟨Client.sample, none, []⟩ _ carefulActions rfl rfl
    rfl hcareful⟩

end Screen

end RepoManager
