import RepoManager.Repository.Sample
import RepoManager.Service.Files

/-!
# The file store and its abstract map

The files service of one repository under a sequence of requests, without I/O failures. Over the
file tree stands an abstract map from a folder and a name to bytes: every request changes the map
by at most one entry, and downloads and listings are functions of the map.

What an accepted upload stores is what `rpm.Read` left of the body. `uploadLaw_iff` says in
which runs this is the body.
-/

open LexicalPath

namespace RepoManager

/-- What the store holds, by folder and name. -/
abbrev Contents := Segment × Segment → Option ByteString

/-- A change of the abstract map: a file gets a content. -/
abbrev Effect := (Segment × Segment) × ByteString

/-- The map after changes, in order. -/
def Contents.apply (held : Contents) (changes : List Effect) : Contents :=
  changes.foldl (fun held change => Function.update held change.1 (some change.2)) held

/-- Changes of other files leave an entry as it is. -/
theorem Contents.apply_of_ne (held : Contents) (changes : List Effect) (key : Segment × Segment)
    (h : ∀ change ∈ changes, change.1 ≠ key) : held.apply changes key = held key := by
  induction changes generalizing held with
  | nil => rfl
  | cons change rest ih =>
    have hne : key ≠ change.1 := (h change List.mem_cons_self).symm
    have hrest := ih (Function.update held change.1 (some change.2)) fun other hother =>
      h other (List.mem_cons_of_mem _ hother)
    rw [Function.update_of_ne hne] at hrest
    exact hrest

/-- `rpm.Read` as documented: on success it has consumed the lead, the signature and the header,
and leaves the reader at the payload. -/
structure PackageReader where
  read : RpmRead
  consumes : ∀ file pkg rest, read file = (.ok pkg, rest) →
    ∃ header, header ≠ [] ∧ file = header ++ rest

/-- A successful read leaves less than the file. -/
theorem PackageReader.rest_ne (reader : PackageReader) {file : ByteString} {pkg : RPM}
    (h : (reader.read file).1 = .ok pkg) : (reader.read file).2 ≠ file := by
  intro heq
  obtain ⟨header, hne, hfile⟩ := reader.consumes file pkg _ (Prod.ext h rfl)
  change file = header ++ (reader.read file).2 at hfile
  rw [heq] at hfile
  exact hne (List.self_eq_append_left.mp hfile)

/-- The files service on one repository. -/
structure Store where
  proto : Proto
  reader : PackageReader
  repo : UnixRepo

/-- A request on the files of the repository. -/
inductive StoreRequest where
  | fileUploading (folder name : Segment) (file : ByteString)
  | getFiles (folder : Segment)
  | fileDownloading (folder name : Segment)

namespace Store

variable (store : Store)

/-- `FilesService.FileUploading` on this repository. -/
def fileUploading (tree : FileTree) (folder name : Segment) (file : ByteString) :
    Except GoError ByteString × FileTree :=
  FilesService.fileUploading store.proto store.reader.read .none tree store.repo.root
    store.repo.dir folder.val store.repo.name name.val file

/-- `FilesService.GetFiles` on this repository. -/
def getFiles (tree : FileTree) (folder : Segment) : Except GoError ByteString :=
  FilesService.getFiles store.proto tree store.repo.root store.repo.dir folder.val store.repo.name

/-- `FilesService.FileDownloading` on this repository. -/
def fileDownloading (tree : FileTree) (folder name : Segment) : Except GoError ByteString :=
  FilesService.fileDownloading tree store.repo.root store.repo.dir folder.val store.repo.name
    name.val

/-- The tree after a request. -/
def serve (tree : FileTree) : StoreRequest → FileTree
  | .fileUploading folder name file => (store.fileUploading tree folder name file).2
  | .getFiles _ => tree
  | .fileDownloading _ _ => tree

/-- The tree after a sequence of requests. -/
def run (tree : FileTree) (requests : List StoreRequest) : FileTree :=
  requests.foldl store.serve tree

/-- The names in the message that `GetFiles` encodes. -/
def listed (tree : FileTree) (folder : Segment) : Except GoError (List ByteString) :=
  (getOdjectsInFolder tree (render (store.repo.dirOf folder))).map FilesPath.fileNames

/-- How often a name is among those that `GetFiles` encodes. There is no reply when one of them, not
necessarily this one, cannot be encoded. -/
def timesListed (tree : FileTree) (folder name : Segment) : Except GoError ℕ :=
  (store.listed tree folder).map (List.count name.val)

/-- The abstract map of a tree. -/
def contents (tree : FileTree) : Contents := fun key =>
  match tree.node (store.repo.dirOf key.1 ++ [key.2]) with
  | some (.file content) => some content
  | _ => none

/-- The change of the abstract map that a request makes. -/
def effect (tree : FileTree) : StoreRequest → Option Effect
  | .fileUploading folder name file =>
    match store.reader.read file, tree.create (store.repo.dirOf folder ++ [name]) with
    | (.ok pkg, rest), .ok _ =>
      if pkg.architecture = folder.val then some ((folder, name), rest) else none
    | _, _ => none
  | _ => none

/-! ## Reads are functions of the map -/

/-- `GetFiles` encodes the listed names. -/
theorem getFiles_eq (tree : FileTree) (folder : Segment) :
    store.getFiles tree folder = store.listed tree folder >>= store.proto.marshalFiles := by
  rw [getFiles, UnixRepo.getFiles_eq, listed]
  cases getOdjectsInFolder tree (render (store.repo.dirOf folder)) with
  | error err => rfl
  | ok objects => rfl

/-- A client that decodes a listing counts a name as often as the listed names have it. -/
theorem timesListed_of_getFiles {tree : FileTree} {folder : Segment} {data : ByteString}
    (h : store.getFiles tree folder = .ok data) (name : Segment) :
    ∃ names, store.proto.unmarshalFiles data = some names ∧
      store.timesListed tree folder name = .ok (names.count name.val) := by
  rw [getFiles_eq] at h
  cases hlisted : store.listed tree folder with
  | error err =>
    rw [hlisted] at h
    exact nomatch h
  | ok names =>
    rw [hlisted] at h
    refine ⟨names, store.proto.files_roundTrip names data h, ?_⟩
    rw [timesListed, hlisted]
    rfl

/-- A download succeeds exactly with the content in the map. -/
theorem fileDownloading_eq_ok_iff (tree : FileTree) (folder name : Segment)
    (content : ByteString) :
    store.fileDownloading tree folder name = .ok content ↔
      store.contents tree (folder, name) = some content := by
  have hread : store.fileDownloading tree folder name =
      osReadFile tree (render (store.repo.dirOf folder ++ [name])) := by
    rw [fileDownloading, FilesService.fileDownloading, UnixRepo.filePath_eq]
    rfl
  rw [hread]
  unfold osReadFile contents FileTree.readFile
  rw [absolute_render]
  cases tree.node (store.repo.dirOf folder ++ [name]) with
  | none => cases tree.missing (store.repo.dirOf folder ++ [name]) <;> simp
  | some found => cases found <;> simp

/-- A readable folder lists a name once when the map has it, and not at all otherwise. -/
theorem timesListed_eq {tree : FileTree} {folder : Segment} (name : Segment)
    (h : tree.node (store.repo.dirOf folder) = some .dir) :
    store.timesListed tree folder name =
      .ok (if (store.contents tree (folder, name)).isSome then 1 else 0) := by
  obtain ⟨objects, hobjects⟩ := (tree.readDir_eq_ok_iff _).mpr h
  have hlisted : store.listed tree folder = .ok (FilesPath.fileNames objects) := by
    rw [listed, getOdjectsInFolder, absolute_render, hobjects]
    rfl
  have hnodup := FilesPath.nodup_fileNames hobjects
  have hmem : name.val ∈ FilesPath.fileNames objects ↔
      (store.contents tree (folder, name)).isSome := by
    rw [FilesPath.mem_fileNames hobjects]
    constructor
    · rintro ⟨other, hother, content, hnode⟩
      obtain rfl : other = name := Segment.ext hother
      simp [contents, hnode]
    · intro hsome
      unfold contents at hsome
      split at hsome
      · next content hnode => exact ⟨name, rfl, content, hnode⟩
      · exact absurd hsome (by simp)
  rw [timesListed, hlisted]
  change Except.ok ((FilesPath.fileNames objects).count name.val) = _
  rw [hnodup.count]
  simp only [hmem]

/-- Downloads of a file depend on the nodes on the way to it only. -/
theorem fileDownloading_congr {tree new : FileTree} {folder name : Segment}
    (h : ∀ above, above <+: store.repo.dirOf folder ++ [name] → new.node above = tree.node above) :
    store.fileDownloading new folder name = store.fileDownloading tree folder name := by
  unfold fileDownloading FilesService.fileDownloading FilesPath.fileDownloading osReadFile
  rw [UnixRepo.filePath_eq, absolute_render, FileTree.readFile_congr h]

/-- How often a name is listed depends on its entry and on the nodes on the way to its folder. -/
theorem timesListed_congr {tree new : FileTree} {folder name : Segment}
    (hdir : ∀ above, above <+: store.repo.dirOf folder → new.node above = tree.node above)
    (hheld : store.contents new (folder, name) = store.contents tree (folder, name)) :
    store.timesListed new folder name = store.timesListed tree folder name := by
  have hself := hdir _ (List.prefix_refl _)
  by_cases h : tree.node (store.repo.dirOf folder) = some .dir
  · rw [store.timesListed_eq name h, store.timesListed_eq name (hself.trans h), hheld]
  · have hread : new.readDir (store.repo.dirOf folder) = tree.readDir (store.repo.dirOf folder) := by
      unfold FileTree.readDir
      rw [hself, FileTree.missing_congr hdir]
      cases hnode : tree.node (store.repo.dirOf folder) with
      | none => rfl
      | some found =>
        cases found with
        | dir => exact absurd hnode h
        | file content => rfl
    unfold timesListed listed getOdjectsInFolder
    rw [absolute_render, hread, hself]

/-! ## One request -/

/-- An accepted upload. -/
def Accepted (tree : FileTree) (folder name : Segment) (file : ByteString) : Prop :=
  ∃ data, (store.fileUploading tree folder name file).1 = .ok data

/-- What changes the map: a package of the architecture of its folder, at a place that can be
opened for writing. The map gets what `rpm.Read` left of the body. -/
theorem effect_eq_some_iff (tree : FileTree) (req : StoreRequest) (change : Effect) :
    store.effect tree req = some change ↔
      ∃ folder name file, req = .fileUploading folder name file ∧
        change = ((folder, name), (store.reader.read file).2) ∧
        (∃ pkg, (store.reader.read file).1 = .ok pkg ∧ pkg.architecture = folder.val) ∧
        ∃ created, tree.create (store.repo.dirOf folder ++ [name]) = .ok created := by
  cases req with
  | getFiles folder => simp [effect]
  | fileDownloading folder name => simp [effect]
  | fileUploading folder name file =>
    simp only [effect, StoreRequest.fileUploading.injEq]
    rcases hread : store.reader.read file with ⟨err | pkg, rest⟩
    · simp [hread]
    · cases hcreate : tree.create (store.repo.dirOf folder ++ [name]) with
      | error err =>
        simp only [reduceCtorEq, false_iff]
        rintro ⟨_, _, _, ⟨rfl, rfl, rfl⟩, -, -, created, hcreated⟩
        rw [hcreate] at hcreated
        exact nomatch hcreated
      | ok created =>
        by_cases harch : pkg.architecture = folder.val
        · simp only [harch, if_true, Option.some.injEq]
          constructor
          · rintro rfl
            exact ⟨folder, name, file, ⟨rfl, rfl, rfl⟩, by rw [hread], ⟨pkg, by rw [hread], harch⟩,
              created, hcreate⟩
          · rintro ⟨_, _, _, ⟨rfl, rfl, rfl⟩, hchange, -⟩
            rw [hchange, hread]
        · simp only [harch, if_false, reduceCtorEq, false_iff]
          rintro ⟨_, _, _, ⟨rfl, rfl, rfl⟩, -, ⟨other, hother, harch'⟩, -⟩
          rw [hread] at hother
          exact harch (Except.ok.inj hother ▸ harch')

/-- The location an upload of a file with an ordinary name writes to. -/
theorem uploadTarget_eq (folder name : Segment) :
    store.repo.uploadTarget folder name.val = store.repo.dirOf folder ++ [name] :=
  walk_segment _ name

/-- An upload leaves the written tree whenever its place could be opened, whatever the reply. -/
theorem fileUploading_snd (tree : FileTree) (path rest : ByteString) :
    (FilesPath.fileUploading store.proto .none tree path rest).2 =
      match tree.create (absolute path) with
      | .ok created => created.write (absolute path) rest
      | .error _ => tree := by
  simp only [FilesPath.fileUploading, UploadFaults.none, osCreate]
  cases tree.create (absolute path) <;> rfl

/-- The tree after an upload. -/
theorem serve_fileUploading (tree : FileTree) (folder name : Segment) (file : ByteString) :
    store.serve tree (.fileUploading folder name file) =
      match store.reader.read file, tree.create (store.repo.dirOf folder ++ [name]) with
      | (.ok pkg, rest), .ok created =>
        if pkg.architecture = folder.val then
          created.write (store.repo.dirOf folder ++ [name]) rest
        else tree
      | _, _ => tree := by
  rw [serve, fileUploading, UnixRepo.fileUploading_eq]
  rcases store.reader.read file with ⟨err | pkg, rest⟩
  · rfl
  · simp only [ne_eq, ite_not]
    by_cases harch : pkg.architecture = folder.val
    · simp only [if_pos harch]
      rw [fileUploading_snd, absolute_render, uploadTarget_eq]
      cases tree.create (store.repo.dirOf folder ++ [name]) with
      | error err => rfl
      | ok created => exact (if_pos harch).symm
    · simp only [if_neg harch]
      cases tree.create (store.repo.dirOf folder ++ [name]) with
      | error err => rfl
      | ok created => exact (if_neg harch).symm

/-- A request that does not change the map does not change the tree. -/
theorem serve_of_effect_eq_none {tree : FileTree} {req : StoreRequest}
    (h : store.effect tree req = none) : store.serve tree req = tree := by
  cases req with
  | getFiles folder => rfl
  | fileDownloading folder name => rfl
  | fileUploading folder name file =>
    rw [serve_fileUploading]
    rcases hread : store.reader.read file with ⟨err | pkg, rest⟩
    · rfl
    · cases hcreate : tree.create (store.repo.dirOf folder ++ [name]) with
      | error err => rfl
      | ok created =>
        apply if_neg
        intro harch
        simp [effect, hread, hcreate, harch] at h

/-- A request that changes the map puts the new content in its place and changes nothing else. -/
theorem serve_of_effect_eq_some {tree : FileTree} {req : StoreRequest} {change : Effect}
    (h : store.effect tree req = some change) :
    (store.serve tree req).node (store.repo.dirOf change.1.1 ++ [change.1.2]) =
        some (.file change.2) ∧
      ∀ other, other ≠ store.repo.dirOf change.1.1 ++ [change.1.2] →
        (store.serve tree req).node other = tree.node other := by
  obtain ⟨folder, name, file, rfl, rfl, ⟨pkg, hpkg, harch⟩, created, hcreate⟩ :=
    (store.effect_eq_some_iff tree req change).mp h
  have hread : store.reader.read file = (.ok pkg, (store.reader.read file).2) := Prod.ext hpkg rfl
  have hserve : store.serve tree (.fileUploading folder name file) =
      created.write (store.repo.dirOf folder ++ [name]) (store.reader.read file).2 := by
    rw [serve_fileUploading, hread, hcreate]
    exact if_pos harch
  rw [hserve]
  exact FilesPath.node_write_create hcreate _

/-- One request refines one step of the map. -/
theorem contents_serve (tree : FileTree) (req : StoreRequest) :
    store.contents (store.serve tree req) =
      (store.contents tree).apply (store.effect tree req).toList := by
  cases heffect : store.effect tree req with
  | none =>
    rw [store.serve_of_effect_eq_none heffect]
    rfl
  | some change =>
    obtain ⟨hself, hothers⟩ := store.serve_of_effect_eq_some heffect
    funext key
    change store.contents _ key = Function.update (store.contents tree) change.1 _ key
    by_cases hkey : key = change.1
    · rw [hkey, Function.update_self, contents, hself]
    · have hloc : store.repo.dirOf key.1 ++ [key.2] ≠
          store.repo.dirOf change.1.1 ++ [change.1.2] := by
        intro heq
        obtain ⟨-, -, hfolder, hname⟩ := (UnixRepo.fileLocation_inj ..).mp heq
        exact hkey (Prod.ext hfolder hname)
      rw [Function.update_of_ne hkey, contents, hothers _ hloc, contents]

/-- The directories on the way to the files of a folder are never changed. -/
theorem node_serve_dirOf (tree : FileTree) (req : StoreRequest) (folder : Segment)
    {above : Location} (habove : above <+: store.repo.dirOf folder) :
    (store.serve tree req).node above = tree.node above := by
  cases heffect : store.effect tree req with
  | none => rw [store.serve_of_effect_eq_none heffect]
  | some change =>
    apply (store.serve_of_effect_eq_some heffect).2
    intro heq
    have hlength := habove.length_le
    rw [heq] at hlength
    simp only [UnixRepo.dirOf, List.length_append, List.length_cons, List.length_nil] at hlength
    omega

/-- A request changes the downloads and listings of the file it stores only. -/
theorem serve_others (tree : FileTree) (req : StoreRequest) (folder name : Segment)
    (h : ∀ change ∈ store.effect tree req, change.1 ≠ (folder, name)) :
    store.fileDownloading (store.serve tree req) folder name =
        store.fileDownloading tree folder name ∧
      store.timesListed (store.serve tree req) folder name =
        store.timesListed tree folder name := by
  have hdir : ∀ above, above <+: store.repo.dirOf folder →
      (store.serve tree req).node above = tree.node above := fun above habove =>
    store.node_serve_dirOf tree req folder habove
  constructor
  · apply store.fileDownloading_congr
    intro above habove
    rcases List.prefix_concat_iff.mp habove with rfl | hproper
    · cases heffect : store.effect tree req with
      | none => rw [store.serve_of_effect_eq_none heffect]
      | some change =>
        apply (store.serve_of_effect_eq_some heffect).2
        intro heq
        obtain ⟨-, -, hfolder, hname⟩ := (UnixRepo.fileLocation_inj ..).mp heq
        exact h change heffect (Prod.ext hfolder.symm hname.symm)
    · exact hdir above hproper
  · apply store.timesListed_congr hdir
    rw [contents_serve, Contents.apply_of_ne]
    intro change hchange
    exact h change (Option.mem_toList.mp hchange)

/-! ## Runs -/

/-- The changes that a sequence of requests makes. -/
def effects (tree : FileTree) : List StoreRequest → List Effect
  | [] => []
  | req :: rest => (store.effect tree req).toList ++ effects (store.serve tree req) rest

/-- A run of the service refines a run of the map. -/
theorem contents_run (tree : FileTree) (requests : List StoreRequest) :
    store.contents (store.run tree requests) =
      (store.contents tree).apply (store.effects tree requests) := by
  induction requests generalizing tree with
  | nil => rfl
  | cons req rest ih =>
    change store.contents (store.run (store.serve tree req) rest) = _
    rw [ih, contents_serve, effects, Contents.apply, Contents.apply, Contents.apply,
      List.foldl_append]

/-- The directories on the way to the files of a folder are never changed. -/
theorem node_run_dirOf (tree : FileTree) (requests : List StoreRequest) (folder : Segment)
    {above : Location} (habove : above <+: store.repo.dirOf folder) :
    (store.run tree requests).node above = tree.node above := by
  induction requests generalizing tree with
  | nil => rfl
  | cons req rest ih =>
    change (store.run (store.serve tree req) rest).node above = _
    rw [ih, store.node_serve_dirOf tree req folder habove]

/-- An upload is accepted exactly when it changes the map and its reply can be encoded. -/
theorem accepted_iff (tree : FileTree) (folder name : Segment) (file : ByteString) :
    store.Accepted tree folder name file ↔
      store.effect tree (.fileUploading folder name file) =
          some ((folder, name), (store.reader.read file).2) ∧
        ∃ data, store.proto.marshalFile name.val = .ok data := by
  have hbase : base (render (store.repo.uploadTarget folder name.val)) = name.val := by
    rw [uploadTarget_eq, base_render_child]
  rw [Accepted, fileUploading, UnixRepo.fileUploading_isOk_iff, UnixRepo.UploadAccepted, hbase,
    ← FileTree.create_eq_ok_iff, uploadTarget_eq, effect_eq_some_iff]
  constructor
  · rintro ⟨hpkg, -, hcreate, hdata⟩
    exact ⟨⟨folder, name, file, rfl, rfl, hpkg, hcreate⟩, hdata⟩
  · rintro ⟨⟨_, _, _, hreq, -, hpkg, hcreate⟩, hdata⟩
    obtain ⟨rfl, rfl, rfl⟩ := StoreRequest.fileUploading.inj hreq
    exact ⟨hpkg, rfl, hcreate, hdata⟩

/-- No request of a sequence is an accepted upload of this file. -/
def Untouched (folder name : Segment) : FileTree → List StoreRequest → Prop
  | _, [] => True
  | tree, req :: rest =>
    (∀ file, req = .fileUploading folder name file → ¬ store.Accepted tree folder name file) ∧
      Untouched folder name (store.serve tree req) rest

/-- After an accepted upload the map changes at that file by accepted uploads only: the reply for
this name can be encoded. -/
theorem effects_of_untouched {folder name : Segment} {data : ByteString}
    (hdata : store.proto.marshalFile name.val = .ok data) (tree : FileTree)
    (requests : List StoreRequest) (h : store.Untouched folder name tree requests) :
    ∀ change ∈ store.effects tree requests, change.1 ≠ (folder, name) := by
  induction requests generalizing tree with
  | nil => intro change hchange; exact absurd hchange List.not_mem_nil
  | cons req rest ih =>
    obtain ⟨hreq, hrest⟩ := h
    intro change hchange hkey
    rcases List.mem_append.mp hchange with hhead | htail
    · have heffect := Option.mem_toList.mp hhead
      obtain ⟨_, _, file, rfl, rfl, -⟩ := (store.effect_eq_some_iff tree req change).mp heffect
      obtain ⟨rfl, rfl⟩ := Prod.mk.inj hkey
      exact hreq file rfl ((store.accepted_iff tree _ _ file).mpr ⟨heffect, data, hdata⟩)
    · exact ih (store.serve tree req) hrest change htail hkey

/-- After an accepted upload, and until the next one, the store holds what `rpm.Read` left of the
body, and lists its name once. -/
theorem run_of_accepted {tree : FileTree} {folder name : Segment} {file : ByteString}
    (haccepted : store.Accepted tree folder name file) {later : List StoreRequest}
    (hlater : store.Untouched folder name
      (store.serve tree (.fileUploading folder name file)) later) :
    let reached := store.run (store.serve tree (.fileUploading folder name file)) later
    store.fileDownloading reached folder name = .ok (store.reader.read file).2 ∧
      store.timesListed reached folder name = .ok 1 := by
  intro reached
  obtain ⟨heffect, data, hdata⟩ := (store.accepted_iff ..).mp haccepted
  have hheld : store.contents reached (folder, name) = some (store.reader.read file).2 := by
    rw [contents_run, Contents.apply_of_ne _ _ _ (store.effects_of_untouched hdata _ _ hlater),
      contents_serve, heffect]
    exact Function.update_self ..
  have hdir : reached.node (store.repo.dirOf folder) = some .dir := by
    have hparent := FileTree.parent_dir (store.serve tree (.fileUploading folder name file))
      (store.serve_of_effect_eq_some heffect).1
    exact (store.node_run_dirOf _ _ folder (List.prefix_refl _)).trans hparent
  refine ⟨(store.fileDownloading_eq_ok_iff ..).mpr hheld, ?_⟩
  rw [store.timesListed_eq name hdir, hheld]
  rfl

/-- Every listing that is then replied has the name once for the client that decodes it. -/
theorem count_of_accepted {tree : FileTree} {folder name : Segment} {file : ByteString}
    (haccepted : store.Accepted tree folder name file) {later : List StoreRequest}
    (hlater : store.Untouched folder name
      (store.serve tree (.fileUploading folder name file)) later) {data : ByteString}
    (hreply : store.getFiles
      (store.run (store.serve tree (.fileUploading folder name file)) later) folder = .ok data) :
    ∃ names, store.proto.unmarshalFiles data = some names ∧ names.count name.val = 1 := by
  obtain ⟨names, hnames, htimes⟩ := store.timesListed_of_getFiles hreply name
  have honce := (store.run_of_accepted haccepted hlater).2
  exact ⟨names, hnames, Except.ok.inj (htimes.symm.trans honce)⟩

/-- The law of an abstract map, in one run, when an upload of a file is to store `stored file`:
after a successful upload, and until the next one to the same file, that is what is downloaded
and the name is listed once; the upload itself changes no other download and no other listing. -/
def UploadLaw (stored : ByteString → ByteString) (start : FileTree)
    (requests : List StoreRequest) : Prop :=
  ∀ before folder name file later rest,
    requests = before ++ .fileUploading folder name file :: later ++ rest →
    let tree := store.run start before
    let after := store.serve tree (.fileUploading folder name file)
    store.Accepted tree folder name file →
      (store.Untouched folder name after later →
        store.fileDownloading (store.run after later) folder name = .ok (stored file) ∧
          store.timesListed (store.run after later) folder name = .ok 1) ∧
      ∀ folder' name', (folder', name') ≠ (folder, name) →
        store.fileDownloading after folder' name' = store.fileDownloading tree folder' name' ∧
          store.timesListed after folder' name' = store.timesListed tree folder' name'

/-- The store is the abstract map that keeps, of every accepted upload, what `rpm.Read` left of
its body. -/
theorem uploadLaw_rest (start : FileTree) (requests : List StoreRequest) :
    store.UploadLaw (fun file => (store.reader.read file).2) start requests := by
  intro before folder name file later rest _ tree after haccepted
  refine ⟨fun hlater => store.run_of_accepted haccepted hlater, fun folder' name' hother => ?_⟩
  apply store.serve_others
  intro change hchange
  obtain ⟨heffect, -⟩ := (store.accepted_iff ..).mp haccepted
  obtain rfl := Option.some.inj (heffect.symm.trans hchange)
  exact hother.symm

/-- An accepted upload does not store its body. -/
theorem fileDownloading_ne_of_accepted {tree : FileTree} {folder name : Segment}
    {file : ByteString} (h : store.Accepted tree folder name file) :
    store.fileDownloading (store.serve tree (.fileUploading folder name file)) folder name ≠
      .ok file := by
  intro hdownload
  have hstored := (store.uploadLaw_rest tree [.fileUploading folder name file] [] folder name file
    [] [] rfl h).1 trivial
  obtain ⟨pkg, hpkg, -⟩ := (UnixRepo.fileUploading_isOk_iff.mp h).1
  exact store.reader.rest_ne hpkg (Except.ok.inj (hstored.1.symm.trans hdownload))

/-- The store keeps the bodies in exactly those runs in which no upload is accepted: every
accepted one loses what `rpm.Read` consumed. -/
theorem uploadLaw_iff (start : FileTree) (requests : List StoreRequest) :
    store.UploadLaw (fun file => file) start requests ↔
      ∀ before folder name file rest,
        requests = before ++ .fileUploading folder name file :: rest →
        ¬ store.repo.UploadAccepted store.proto store.reader.read .none (store.run start before)
          folder name.val file := by
  constructor
  · intro hlaw before folder name file rest hrequests haccepted
    rw [← UnixRepo.fileUploading_isOk_iff] at haccepted
    obtain ⟨hself, -⟩ := hlaw before folder name file [] rest (by simpa using hrequests) haccepted
    exact store.fileDownloading_ne_of_accepted haccepted (hself trivial).1
  · intro hnone before folder name file later rest hrequests tree after haccepted
    apply absurd (UnixRepo.fileUploading_isOk_iff.mp haccepted)
    exact hnone before folder name file (later ++ rest) (by simpa using hrequests)

/-- A store that reads the sample package. -/
def sample : Store where
  proto := .short
  repo := .sample
  reader :=
    { read := sampleRead
      consumes := by
        intro file pkg rest h
        unfold sampleRead at h
        split at h
        · next hway =>
          obtain ⟨payload, rfl⟩ := hway
          simp only [List.drop_left, Prod.mk.injEq] at h
          exact ⟨samplePrelude, by decide, by rw [h.2]⟩
        · exact nomatch h }

/-- The name of a package names a child. -/
theorem isSegment_kesRpm : IsSegment (ascii "kes.rpm") := by decide

/-- An ordinary file name. -/
def kesRpm : Segment := ⟨ascii "kes.rpm", isSegment_kesRpm⟩

/-- The sample package, uploaded to an empty folder, is not what is downloaded. -/
theorem sample_not_uploadLaw :
    ¬ sample.UploadLaw (fun file => file) (.wayTo (sample.repo.dirOf noarch))
      [.fileUploading noarch kesRpm samplePackage] := by
  intro hlaw
  have haccepted : sample.Accepted (.wayTo (sample.repo.dirOf noarch)) noarch kesRpm
      samplePackage := by
    apply UnixRepo.fileUploading_isOk_iff.mpr
    refine ⟨⟨sampleRPM, ?_, rfl⟩, rfl, ⟨_, _, sample.uploadTarget_eq _ _, ?_, ?_⟩, ?_⟩
    · exact congrArg Prod.fst sampleRead_samplePackage
    · rw [FileTree.node_wayTo]
      exact if_pos (List.prefix_refl _)
    · rw [uploadTarget_eq, FileTree.node_wayTo, if_neg (FileTree.not_child_prefix _ _)]
      simp
    · rw [uploadTarget_eq, base_render_child]
      exact ⟨_, rfl⟩
  have hself := (hlaw [] _ _ _ [] [] rfl haccepted).1 trivial
  exact sample.fileDownloading_ne_of_accepted haccepted hself.1

end Store

end RepoManager
