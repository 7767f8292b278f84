import RepoManager.Client.LastLoad
import RepoManager.Confinement
import RepoManager.Service.FailedUpload

/-!
# The list of the client and the directory of the server

One client and one folder: the list is loaded, then files are uploaded one after the other. The
server creates or overwrites, by the name of the file. The client adds a row for every reply, so a
name that is overwritten is listed twice.

`mirror_throughout_iff` says for every sequence of uploads when the list mirrors the directory in
all states.
-/

open LexicalPath

namespace RepoManager

namespace Mirror

/-- The folder whose list is shown, and what both sides rely on. -/
structure Folder where
  proto : Proto
  rpmRead : RpmRead
  repo : UnixRepo
  folder : Segment
  normalModule : Option Ref

/-- The client and the files of the server. -/
structure State where
  client : Client
  tree : FileTree

/-- An upload that reaches the service, under its raw file name, or one that fails on the way. -/
inductive Label where
  | upload (raw file : ByteString) (faults : UploadFaults)
  | refused (raw message : ByteString)

namespace Folder

variable (folder : Folder)

/-- The names that `GetFiles` puts into its reply. -/
def listed (tree : FileTree) : Except GoError (List ByteString) :=
  (getOdjectsInFolder tree (render (folder.repo.dirOf folder.folder))).map FilesPath.fileNames

/-- `GetFiles` for the folder. -/
def getFiles (tree : FileTree) : Except GoError ByteString :=
  FilesService.getFiles folder.proto tree folder.repo.root folder.repo.dir folder.folder.val
    folder.repo.name

/-- `FileUploading` to the folder; the last element of the raw name is delivered. -/
def fileUploading (tree : FileTree) (raw file : ByteString) (faults : UploadFaults) :
    Except GoError ByteString × FileTree :=
  FilesService.fileUploading folder.proto folder.rpmRead faults tree folder.repo.root
    folder.repo.dir folder.folder.val folder.repo.name (base raw) file

/-- A successful `actionDataLoad`. -/
def load (state : State) : Option State :=
  match folder.getFiles state.tree with
  | .error _ => none
  | .ok data =>
    (folder.proto.unmarshalFiles data).map fun names =>
      let thunk := actionDataLoad folder.folder.val
      { state with
        client := state.client.dispatchAll folder.normalModule
          (thunk.before ++ thunk.fulfilled names) }

/-- One `actionUploadingFile`, with its reply. A failing one leaves the directory unchanged. -/
def step (state : State) : Label → Option State
  | .upload raw file faults =>
    let thunk := uploadThunk folder.folder.val raw
    match folder.fileUploading state.tree raw file faults with
    | (.ok data, tree) =>
      (folder.proto.unmarshalFile data).map fun name =>
        { client := state.client.dispatchAll folder.normalModule
            (thunk.before ++ thunk.fulfilled name)
          tree }
    | (.error err, tree) =>
      if folder.listed tree = folder.listed state.tree then
        some
          { client := state.client.dispatchAll folder.normalModule
              (thunk.before ++ thunk.rejected err)
            tree }
      else none
  | .refused raw message =>
    let thunk := uploadThunk folder.folder.val raw
    some
      { state with
        client := state.client.dispatchAll folder.normalModule
          (thunk.before ++ thunk.rejected message) }

/-- The client and the server as a machine. -/
def machine : Machine State Label := ⟨folder.step⟩

/-- The list of the client has no duplicate and just the names that `GetFiles` would list. -/
def Mirrors (state : State) : Prop :=
  ∀ names, folder.listed state.tree = .ok names →
    state.client.names.Nodup ∧ ∀ name, name ∈ state.client.names ↔ name ∈ names

/-- An upload that succeeds has a name that is not listed yet. -/
def FreshName (state : State) : Label → Prop
  | .upload raw file faults =>
    folder.repo.UploadAccepted folder.proto folder.rpmRead faults state.tree folder.folder
      (base raw) file → ∀ names, folder.listed state.tree = .ok names → base raw ∉ names
  | .refused _ _ => True

end Folder

/-! ## The client -/

section Client

variable (normalModule : Option Ref) (client : Client)

/-- The rows of the data are on the heap. -/
def InHeap : Prop := ∀ row ∈ client.gridReduser.data, row < client.heap.rows.length

variable {client}

/-- The heap and the data after a successful upload. -/
theorem upload_eq (folder file name : ByteString) :
    let heap := client.heap.unselectRow client.gridReduser.row
    let after := client.dispatchAll normalModule ((uploadThunk folder file).before ++
      (uploadThunk folder file).fulfilled name)
    after.heap = (heap.newRows [freshRow name]).unselectRow client.gridReduser.row ∧
      after.gridReduser.data = client.gridReduser.data ++ heap.newRefs [freshRow name] :=
  ⟨rfl, rfl⟩

/-- A successful upload adds its name to the list. -/
theorem names_upload (hheap : InHeap client) (folder file name : ByteString) :
    (client.dispatchAll normalModule ((uploadThunk folder file).before ++
      (uploadThunk folder file).fulfilled name)).names = client.names ++ [name] := by
  obtain ⟨hafter, hdata⟩ := @upload_eq normalModule client folder file name
  rw [Client.names, hafter, hdata, List.filterMap_append]
  congr 1
  · apply List.filterMap_congr
    intro row hrow
    have hlt : row < (client.heap.unselectRow client.gridReduser.row).rows.length := by
      rw [Heap.length_unselectRow]
      exact hheap row hrow
    obtain ⟨held, hname⟩ :
        ∃ held, (client.heap.unselectRow client.gridReduser.row).rowName row = some held := by
      rw [Heap.rowName, List.getElem?_eq_getElem hlt]
      exact ⟨_, rfl⟩
    rw [Heap.rowName_unselectRow, Heap.rowName_newRows _ _ hname, ← hname,
      Heap.rowName_unselectRow]
  · have hnew := (client.heap.unselectRow client.gridReduser.row).rowName_newRefs [freshRow name]
    have hrow : Heap.newRefs (client.heap.unselectRow client.gridReduser.row) [freshRow name] =
        [(client.heap.unselectRow client.gridReduser.row).rows.length] := rfl
    rw [hrow, List.map_singleton, List.map_singleton, List.singleton_inj] at hnew
    rw [hrow, List.filterMap_cons, Heap.rowName_unselectRow, hnew]
    rfl

/-- The rows of the data stay on the heap. -/
theorem inHeap_upload (hheap : InHeap client) (folder file name : ByteString) :
    InHeap (client.dispatchAll normalModule ((uploadThunk folder file).before ++
      (uploadThunk folder file).fulfilled name)) := by
  obtain ⟨hafter, hdata⟩ := @upload_eq normalModule client folder file name
  intro row hrow
  rw [hafter, Heap.length_unselectRow, Heap.newRows, List.length_append, Heap.length_unselectRow]
  rw [hdata] at hrow
  rcases List.mem_append.mp hrow with hold | hnew
  · exact Nat.lt_add_right _ (hheap row hold)
  · rw [Heap.newRefs, List.mem_range'_1, Heap.length_unselectRow] at hnew
    exact hnew.2

/-- After a load the list is that of the reply. -/
theorem names_load (folder : ByteString) (names : List ByteString) :
    (client.dispatchAll normalModule ((actionDataLoad folder).before ++
      (actionDataLoad folder).fulfilled names)).names = names := by
  rw [Client.dispatchAll, List.foldl_append]
  exact LastLoad.names_settle ⟨normalModule, id⟩ _ folder (.ok names)

/-- After a load the rows of the data are on the heap. -/
theorem inHeap_load (folder : ByteString) (names : List ByteString) :
    InHeap (client.dispatchAll normalModule ((actionDataLoad folder).before ++
      (actionDataLoad folder).fulfilled names)) := by
  intro row hrow
  change row ∈ (client.heap.unselectRow client.gridReduser.row).newRefs (names.map freshRow) at hrow
  rw [Heap.newRefs, List.mem_range'_1] at hrow
  exact hrow.2.trans_eq List.length_append.symm

end Client

/-! ## The server -/

namespace Folder

section Server

variable {folder : Folder} {tree : FileTree} {raw file : ByteString} {faults : UploadFaults}

/-- The names of a directory that can be listed. -/
theorem listed_eq_ok_iff : (∃ names, folder.listed tree = .ok names) ↔
    tree.node (folder.repo.dirOf folder.folder) = some .dir := by
  rw [← tree.readDir_eq_ok_iff, listed, getOdjectsInFolder, absolute_render]
  cases tree.readDir (folder.repo.dirOf folder.folder) with
  | error err =>
    constructor
    · rintro ⟨names, h⟩
      cases h
    · rintro ⟨objects, h⟩
      cases h
  | ok objects => exact ⟨fun _ => ⟨objects, rfl⟩, fun _ => ⟨_, rfl⟩⟩

/-- A name is listed when a file of the directory has it. -/
theorem mem_listed_iff {names : List ByteString} (h : folder.listed tree = .ok names)
    (name : ByteString) : name ∈ names ↔ ∃ child : Segment, child.val = name ∧
      ∃ content, tree.node (folder.repo.dirOf folder.folder ++ [child]) = some (.file content) := by
  rw [listed, getOdjectsInFolder, absolute_render] at h
  cases hread : tree.readDir (folder.repo.dirOf folder.folder) with
  | error err =>
    rw [hread] at h
    cases h
  | ok objects =>
    rw [hread] at h
    obtain rfl := Except.ok.inj h
    exact FilesPath.mem_fileNames hread name

/-- In a directory that is there, an upload is only accepted under an ordinary name. -/
theorem isSegment_of_accepted (hdir : tree.node (folder.repo.dirOf folder.folder) = some .dir)
    (h : folder.repo.UploadAccepted folder.proto folder.rpmRead faults tree folder.folder (base raw)
      file) : IsSegment (base raw) := by
  obtain ⟨-, -, ⟨-, -, -, -, hnot⟩, -⟩ := h
  rw [isSegment_base_iff]
  refine ⟨fun hdot => hnot ?_, fun hparent => hnot ?_, fun hslash => hnot ?_⟩
  · rw [UnixRepo.uploadTarget, hdot]
    exact hdir
  · rw [UnixRepo.uploadTarget, hparent, walk_dotDot]
    rw [UnixRepo.dirOf, ← List.singleton_append, ← List.append_assoc] at hdir ⊢
    rw [List.dropLast_concat]
    exact tree.parent_dir hdir
  · rw [UnixRepo.uploadTarget, hslash]
    exact hdir

/-- What every step keeps: the directory is there, and the rows of the data are on the heap. -/
structure Inv (folder : Folder) (state : State) : Prop where
  dir : state.tree.node (folder.repo.dirOf folder.folder) = some .dir
  heap : InHeap state.client

/-- What a step of an upload does: it succeeds, or it fails and changes neither list nor
directory. -/
theorem step_upload_cases {state next : State}
    (hstep : folder.step state (.upload raw file faults) = some next) :
    (folder.repo.UploadAccepted folder.proto folder.rpmRead faults state.tree folder.folder
        (base raw) file ∧
      next.tree = (folder.fileUploading state.tree raw file faults).2 ∧
      ∃ name, next.client = state.client.dispatchAll folder.normalModule
          ((uploadThunk folder.folder.val raw).before ++
            (uploadThunk folder.folder.val raw).fulfilled name) ∧
        name = base (render (folder.repo.uploadTarget folder.folder (base raw)))) ∨
    (¬ folder.repo.UploadAccepted folder.proto folder.rpmRead faults state.tree folder.folder
        (base raw) file ∧
      folder.listed next.tree = folder.listed state.tree ∧
      ∃ err, next.client = state.client.dispatchAll folder.normalModule
        ((uploadThunk folder.folder.val raw).before ++
          (uploadThunk folder.folder.val raw).rejected err)) := by
  rw [← UnixRepo.fileUploading_isOk_iff]
  simp only [step] at hstep
  split at hstep
  · next data tree hupload =>
    obtain ⟨name, hname, rfl⟩ := Option.map_eq_some_iff.mp hstep
    refine .inl ⟨⟨data, congrArg Prod.fst hupload⟩, (congrArg Prod.snd hupload).symm, name, rfl, ?_⟩
    obtain ⟨-, -, -, -, -, hmarshal⟩ := UnixRepo.fileUploading_eq_ok_iff.mp hupload
    rw [folder.proto.file_roundTrip _ _ hmarshal] at hname
    exact (Option.some.inj hname).symm
  · next err tree hupload =>
    split at hstep
    · next hlisted =>
      obtain rfl := Option.some.inj hstep
      refine .inr ⟨?_, hlisted, err, rfl⟩
      rintro ⟨data, hdata⟩
      rw [← fileUploading, hupload] at hdata
      exact nomatch hdata
    · exact nomatch hstep

/-- A failing action leaves the list and the heap. -/
theorem client_rejected (normalModule : Option Ref) (client : Client) (target raw : ByteString)
    (message : ByteString) :
    let after := client.dispatchAll normalModule
      ((uploadThunk target raw).before ++ (uploadThunk target raw).rejected message)
    after.names = client.names ∧ (InHeap client → InHeap after) :=
  ⟨rfl, id⟩

end Server

section Steps

variable {folder : Folder} {state next : State} {label : Label}

/-- Every step keeps the invariant. -/
theorem inv_step (h : Inv folder state) (hstep : folder.step state label = some next) :
    Inv folder next := by
  cases label with
  | refused raw message =>
    obtain rfl := Option.some.inj hstep
    exact ⟨h.dir, h.heap⟩
  | upload raw file faults =>
    rcases step_upload_cases hstep with ⟨haccepted, htree, name, hclient, -⟩ |
      ⟨-, hlisted, err, hclient⟩
    · refine ⟨?_, hclient ▸ inHeap_upload folder.normalModule h.heap folder.folder.val raw name⟩
      obtain ⟨-, hothers⟩ := UnixRepo.node_fileUploading haccepted
      rw [htree]
      refine (hothers _ fun htarget => ?_).trans h.dir
      obtain ⟨-, -, ⟨-, -, -, -, hnot⟩, -⟩ := haccepted
      exact hnot (htarget ▸ h.dir)
    · refine ⟨?_, hclient ▸ h.heap⟩
      rw [← listed_eq_ok_iff, hlisted, listed_eq_ok_iff]
      exact h.dir

/-- After a successful upload the directory lists what it did before, and the name. -/
theorem mem_listed_upload {raw file : ByteString} {faults : UploadFaults}
    {before after : List ByteString}
    (haccepted : folder.repo.UploadAccepted folder.proto folder.rpmRead faults state.tree
      folder.folder (base raw) file) (hname : IsSegment (base raw))
    (hbefore : folder.listed state.tree = .ok before)
    (hafter : folder.listed (folder.fileUploading state.tree raw file faults).2 = .ok after)
    (name : ByteString) : name ∈ after ↔ name ∈ before ∨ name = base raw := by
  obtain ⟨hself, hothers⟩ := UnixRepo.node_fileUploading haccepted
  have htarget : folder.repo.uploadTarget folder.folder (base raw) =
      folder.repo.dirOf folder.folder ++ [⟨base raw, hname⟩] := walk_segment _ ⟨base raw, hname⟩
  rw [htarget] at hself hothers
  rw [mem_listed_iff hafter, mem_listed_iff hbefore]
  constructor
  · rintro ⟨child, rfl, content, hnode⟩
    by_cases hchild : child = ⟨base raw, hname⟩
    · exact .inr (congrArg Segment.val hchild)
    · refine .inl ⟨child, rfl, content, (hothers _ fun heq => hchild ?_).symm.trans hnode⟩
      simpa using heq
  · rintro (⟨child, rfl, content, hnode⟩ | rfl)
    · by_cases hchild : child = ⟨base raw, hname⟩
      · exact ⟨child, rfl, _, hchild ▸ hself⟩
      · refine ⟨child, rfl, content, (hothers _ fun heq => hchild ?_).trans hnode⟩
        simpa using heq
    · exact ⟨⟨base raw, hname⟩, rfl, _, hself⟩

/-- The list keeps mirroring the directory exactly when the upload has a fresh name. -/
theorem mirrors_step (hinv : Inv folder state) (h : folder.Mirrors state)
    (hstep : folder.step state label = some next) :
    folder.Mirrors next ↔ folder.FreshName state label := by
  cases label with
  | refused raw message =>
    obtain rfl := Option.some.inj hstep
    exact ⟨fun _ => trivial, fun _ => h⟩
  | upload raw file faults =>
    rcases step_upload_cases hstep with ⟨haccepted, htree, name, hclient, hreply⟩ |
      ⟨hrefused, hlisted, err, hclient⟩
    · have hname := isSegment_of_accepted hinv.dir haccepted
      have htarget : folder.repo.uploadTarget folder.folder (base raw) =
          folder.repo.dirOf folder.folder ++ [⟨base raw, hname⟩] := walk_segment _ ⟨base raw, hname⟩
      rw [htarget, base_render_child] at hreply
      obtain ⟨before, hbefore⟩ := listed_eq_ok_iff.mpr hinv.dir
      obtain ⟨after, hafter⟩ := listed_eq_ok_iff.mpr (inv_step hinv hstep).dir
      obtain ⟨hnodup, hmem⟩ := h before hbefore
      have hnames : next.client.names = state.client.names ++ [base raw] := by
        rw [hclient, names_upload _ hinv.heap, hreply]
      rw [htree] at hafter
      have hlist := mem_listed_upload haccepted hname hbefore hafter
      constructor
      · intro hmirrors _ names hsome
        obtain rfl := Except.ok.inj (hbefore.symm.trans hsome)
        obtain ⟨hnodup', -⟩ := hmirrors after (htree ▸ hafter)
        rw [hnames, List.nodup_append] at hnodup'
        intro hheld
        exact hnodup'.2.2 _ ((hmem _).mpr hheld) _ (List.mem_singleton_self _) rfl
      · intro hfresh names hsome
        rw [htree] at hsome
        obtain rfl := Except.ok.inj (hafter.symm.trans hsome)
        have hnew := hfresh haccepted before hbefore
        rw [hnames]
        refine ⟨?_, fun other => ?_⟩
        · rw [List.nodup_append]
          refine ⟨hnodup, List.nodup_singleton _, fun left hleft right hright heq => hnew ?_⟩
          rw [← List.mem_singleton.mp hright, ← heq, ← hmem]
          exact hleft
        · rw [List.mem_append, List.mem_singleton, hmem, hlist]
    · constructor
      · intro _ haccepted
        exact absurd haccepted hrefused
      · intro _ names hsome
        rw [hlisted] at hsome
        rw [hclient, (client_rejected ..).1]
        exact h names hsome

/-- After a load the list mirrors the directory. -/
theorem mirrors_load (hload : folder.load state = some next) :
    Inv folder next ∧ folder.Mirrors next := by
  simp only [load] at hload
  split at hload
  · exact nomatch hload
  · next data hdata =>
    obtain ⟨names, hnames, rfl⟩ := Option.map_eq_some_iff.mp hload
    rw [getFiles, UnixRepo.getFiles_eq] at hdata
    obtain ⟨objects, hobjects, hmarshal⟩ := bind_eq_ok_iff.mp hdata
    rw [folder.proto.files_roundTrip _ _ hmarshal] at hnames
    obtain rfl := Option.some.inj hnames
    have hlisted : folder.listed state.tree = .ok (FilesPath.fileNames objects) := by
      rw [listed, hobjects]
      rfl
    have hheap := @inHeap_load folder.normalModule state.client folder.folder.val
      (FilesPath.fileNames objects)
    refine ⟨⟨listed_eq_ok_iff.mp ⟨_, hlisted⟩, hheap⟩, fun other hother => ?_⟩
    obtain rfl := Except.ok.inj (hlisted.symm.trans hother)
    rw [names_load]
    rw [getOdjectsInFolder_eq_ok_iff] at hobjects
    exact ⟨FilesPath.nodup_fileNames hobjects, fun _ => Iff.rfl⟩

end Steps

/-- After a load, and in every sequence of uploads after it, the list of the client mirrors the
directory in every state exactly when every successful upload has a name that is not listed yet. -/
theorem mirror_throughout_iff (folder : Folder) (start loaded last : State) (labels : List Label)
    (hload : folder.load start = some loaded)
    (hrun : folder.machine.run loaded labels = some last) :
    folder.machine.Throughout folder.Mirrors loaded labels ↔
      folder.machine.Along folder.FreshName loaded labels := by
  obtain ⟨hinv, hmirrors⟩ := mirrors_load hload
  apply folder.machine.throughout_iff_along (I := Inv folder) ?_ ?_ hinv hmirrors hrun
  · exact fun _ _ _ => inv_step
  · exact fun _ _ _ => mirrors_step

/-- The folder `noarch` of the sample. -/
def sample : Folder where
  proto := .short
  rpmRead := sampleRead
  repo := .sample
  folder := noarch
  normalModule := none

/-- A client without a list, and a directory that holds `kes.rpm`. -/
def sampleStart : State := ⟨.initial ⟨[], []⟩, FilesService.sampleTree⟩

/-- After an upload over `kes.rpm` the directory still holds one file, which is listed twice. -/
theorem sample_not_mirrors :
    ∃ loaded last, sample.load sampleStart = some loaded ∧
      sample.machine.run loaded [.upload (ascii "kes.rpm") samplePackage .none] = some last ∧
      sample.listed last.tree = .ok [ascii "kes.rpm"] ∧
      last.client.names = [ascii "kes.rpm", ascii "kes.rpm"] ∧ ¬ sample.Mirrors last := by
  refine ⟨_, _, rfl, rfl, rfl, rfl, ?_⟩
  intro hmirrors
  have hnodup : [ascii "kes.rpm", ascii "kes.rpm"].Nodup := (hmirrors _ rfl).1
  exact absurd hnodup (by decide)

/-- After an upload of another file and one that fails, the list still mirrors the directory. -/
theorem sample_mirror_throughout_iff :
    ∃ loaded, sample.load sampleStart = some loaded ∧
      sample.machine.Throughout sample.Mirrors loaded
        [.upload (ascii "other.rpm") samplePackage .none,
          .refused (ascii "b.rpm") (ascii "Timeout")] := by
  refine ⟨_, rfl, ?_⟩
  apply (mirror_throughout_iff sample sampleStart _ _ _ rfl rfl).mpr
  refine .cons rfl ?_ (.cons rfl trivial trivial)
  intro _ names hnames
  obtain rfl : [ascii "kes.rpm"] = names := Except.ok.inj hnames
  decide

end Folder

end Mirror

end RepoManager
