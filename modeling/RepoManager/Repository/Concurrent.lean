import RepoManager.Library.Interleaving
import RepoManager.Repository.Files

/-!
# Concurrent uploads and downloads of one file

Any number of `FilesPath.FileUploading` and `FilesPath.FileDownloading` on one path, in any
interleaving of their system calls. An upload opens the file, which truncates it, writes its
whole buffer through its own handle, and closes it; a download is one read. There is no lock and
no temporary file.

The tree agrees at every moment with an abstract state: the buffers that were written since the
file was last opened. The content is these buffers laid over each other in the order of writing.
The events of a run are recorded in a history, which the code does not have.
-/

open LexicalPath

namespace RepoManager

namespace Concurrent

/-- How far an upload has come. -/
inductive Stage where
  | ready
  | opened
  | written
  | closed
  | failed (err : GoError)
  deriving DecidableEq

/-- A running request: an upload with its `fileBytes`, or a download with its reply. -/
inductive Thread where
  | upload (fileBytes : ByteString) (stage : Stage)
  | download (reply : Option (Except GoError ByteString))

/-- A request for the file. -/
inductive FileRequest where
  | fileUploading (fileBytes : ByteString)
  | fileDownloading
  deriving DecidableEq

/-- A request before its first step. -/
def FileRequest.thread : FileRequest → Thread
  | .fileUploading fileBytes => .upload fileBytes .ready
  | .fileDownloading => .download none

/-- What a request did to the file. -/
inductive Event where
  | opened (thread : ℕ)
  | wrote (thread : ℕ) (fileBytes : ByteString)
  | replied (thread : ℕ) (reply : Except GoError ByteString)

/-- The file tree and the history. -/
structure Memory where
  tree : FileTree
  history : List Event

/-- The running requests over the tree. -/
abbrev Requests := Interleaving.System Memory Thread

/-- One system call of a request. -/
def step (path : ByteString) : Interleaving.Step Memory Thread := fun thread mem held =>
  match held with
  | .upload fileBytes .ready =>
    match osCreate mem.tree path with
    | .ok created => some (⟨created, mem.history ++ [.opened thread]⟩, .upload fileBytes .opened)
    | .error err => some (mem, .upload fileBytes (.failed err))
  | .upload fileBytes .opened =>
    some (⟨mem.tree.write (absolute path) fileBytes, mem.history ++ [.wrote thread fileBytes]⟩,
      .upload fileBytes .written)
  | .upload fileBytes .written => some (mem, .upload fileBytes .closed)
  | .download none =>
    let reply := FilesPath.fileDownloading mem.tree path
    some (⟨mem.tree, mem.history ++ [.replied thread reply]⟩, .download (some reply))
  | _ => none

/-- The requests before their first step. -/
def start (tree : FileTree) (requests : List FileRequest) : Requests :=
  ⟨⟨tree, []⟩, requests.map FileRequest.thread⟩

/-- The requests after a schedule. -/
def run (path : ByteString) (tree : FileTree) (requests : List FileRequest) (schedule : List ℕ) :
    Requests :=
  Interleaving.run (step path) (start tree requests) schedule

/-- An upload that runs alone leaves the tree that `FilesPath.FileUploading` leaves. -/
theorem run_upload_alone (proto : Proto) (path : ByteString) (tree : FileTree)
    (fileBytes : ByteString) :
    (run path tree [.fileUploading fileBytes] [0, 0, 0]).shared.tree =
      (FilesPath.fileUploading proto .none tree path fileBytes).2 := by
  cases hcreate : osCreate tree path with
  | error err =>
    simp [run, Interleaving.run, Interleaving.turn, start, FileRequest.thread, step,
      FilesPath.fileUploading, UploadFaults.none, hcreate]
  | ok created =>
    simp [run, Interleaving.run, Interleaving.turn, start, FileRequest.thread, step,
      FilesPath.fileUploading, UploadFaults.none, hcreate]

/-! ## The abstract state -/

/-- What an event does to the buffers written since the file was last opened. -/
def Event.apply : Option (List ByteString) → Event → Option (List ByteString)
  | _, .opened _ => some []
  | buffers, .wrote _ fileBytes => buffers.map (· ++ [fileBytes])
  | buffers, .replied _ _ => buffers

/-- The buffers written since the file was last opened; `none` when it never was. -/
def sinceOpened (history : List Event) : Option (List ByteString) :=
  history.foldl Event.apply none

/-- Buffers laid over each other, the last one on top. -/
def overlays (buffers : List ByteString) : ByteString :=
  buffers.foldl (fun content buffer => FileTree.overlay buffer content) []

/-- The reply of a download after a history. -/
def replyAfter (path : ByteString) (tree : FileTree) (history : List Event) :
    Except GoError ByteString :=
  match sinceOpened history with
  | none => FilesPath.fileDownloading tree path
  | some buffers => .ok (overlays buffers)

/-- One more event. -/
theorem sinceOpened_concat (history : List Event) (event : Event) :
    sinceOpened (history ++ [event]) = event.apply (sinceOpened history) := by
  rw [sinceOpened, List.foldl_concat]
  rfl

/-- The last buffer is complete, and followed by what is longer below it. -/
theorem overlays_concat (buffers : List ByteString) (last : ByteString) :
    overlays (buffers ++ [last]) = last ++ (overlays buffers).drop last.length := by
  rw [overlays, List.foldl_concat]
  rfl

/-- The overlay of some buffers is as long as the longest of them. -/
theorem length_overlays_le_iff (buffers : List ByteString) (bound : ℕ) :
    (overlays buffers).length ≤ bound ↔ ∀ buffer ∈ buffers, buffer.length ≤ bound := by
  induction buffers using List.reverseRecOn with
  | nil => simp [overlays]
  | append_singleton buffers last ih =>
    rw [overlays, List.foldl_concat, FileTree.length_overlay, Nat.max_le]
    change _ ∧ (overlays buffers).length ≤ bound ↔ _
    rw [ih]
    simp [or_imp, forall_and, and_comm]

/-- The content is exactly the last buffer when none below it is longer, and only then. -/
theorem overlays_concat_eq_iff (buffers : List ByteString) (last : ByteString) :
    overlays (buffers ++ [last]) = last ↔ ∀ buffer ∈ buffers, buffer.length ≤ last.length := by
  rw [overlays_concat, List.append_right_eq_self, List.drop_eq_nil_iff, length_overlays_le_iff]

/-- Every buffer since the last opening was written. -/
theorem wrote_of_mem_sinceOpened {history : List Event} {buffers : List ByteString}
    (h : sinceOpened history = some buffers) {fileBytes : ByteString} (hmem : fileBytes ∈ buffers) :
    ∃ thread, .wrote thread fileBytes ∈ history := by
  induction history using List.reverseRecOn generalizing buffers with
  | nil => exact nomatch h
  | append_singleton history event ih =>
    rw [sinceOpened_concat] at h
    cases event with
    | opened thread =>
      obtain rfl := Option.some.inj h
      exact absurd hmem List.not_mem_nil
    | wrote thread written =>
      obtain ⟨earlier, hearlier, rfl⟩ := Option.map_eq_some_iff.mp h
      rcases List.mem_append.mp hmem with hold | hnew
      · obtain ⟨other, hother⟩ := ih hearlier hold
        exact ⟨other, List.mem_append_left _ hother⟩
      · obtain rfl := List.mem_singleton.mp hnew
        exact ⟨thread, List.mem_append_right _ (List.mem_singleton_self _)⟩
    | replied thread reply =>
      obtain ⟨other, hother⟩ := ih h hmem
      exact ⟨other, List.mem_append_left _ hother⟩

/-! ## What a step can do -/

section Steps

variable (path : ByteString) (thread : ℕ) (mem : Memory)

/-- The steps of a request, with the memory before and after. -/
inductive Move : Thread → Memory → Thread → Prop where
  | opens (fileBytes : ByteString) (created : FileTree)
      (hcreate : mem.tree.create (absolute path) = .ok created) :
      Move (.upload fileBytes .ready) ⟨created, mem.history ++ [.opened thread]⟩
        (.upload fileBytes .opened)
  | refused (fileBytes : ByteString) (err : GoError)
      (hcreate : ∀ created, mem.tree.create (absolute path) ≠ .ok created) :
      Move (.upload fileBytes .ready) mem (.upload fileBytes (.failed err))
  | writes (fileBytes : ByteString) :
      Move (.upload fileBytes .opened)
        ⟨mem.tree.write (absolute path) fileBytes, mem.history ++ [.wrote thread fileBytes]⟩
        (.upload fileBytes .written)
  | closes (fileBytes : ByteString) :
      Move (.upload fileBytes .written) mem (.upload fileBytes .closed)
  | replies :
      Move (.download none)
        ⟨mem.tree, mem.history ++ [.replied thread (FilesPath.fileDownloading mem.tree path)]⟩
        (.download (some (FilesPath.fileDownloading mem.tree path)))

variable {path thread mem}

/-- Every step is one of these. -/
theorem move_of_step {held next : Thread} {mem' : Memory}
    (h : step path thread mem held = some (mem', next)) : Move path thread mem held mem' next := by
  cases held with
  | download reply =>
    cases reply with
    | some reply => exact nomatch h
    | none =>
      obtain ⟨rfl, rfl⟩ := Prod.mk.inj (Option.some.inj h)
      exact .replies
  | upload fileBytes stage =>
    cases stage with
    | ready =>
      unfold step osCreate at h
      cases hcreate : mem.tree.create (absolute path) with
      | ok created =>
        simp only [hcreate] at h
        obtain ⟨rfl, rfl⟩ := Prod.mk.inj (Option.some.inj h)
        exact .opens fileBytes created hcreate
      | error err =>
        simp only [hcreate] at h
        obtain ⟨rfl, rfl⟩ := Prod.mk.inj (Option.some.inj h)
        exact .refused fileBytes _ fun created => by simp [hcreate]
    | opened =>
      obtain ⟨rfl, rfl⟩ := Prod.mk.inj (Option.some.inj h)
      exact .writes fileBytes
    | written =>
      obtain ⟨rfl, rfl⟩ := Prod.mk.inj (Option.some.inj h)
      exact .closes fileBytes
    | closed => exact nomatch h
    | failed err => exact nomatch h

end Steps

/-! ## The tree agrees with the history -/

section Invariants

variable (path : ByteString) (tree : FileTree) (requests : List FileRequest)

/-- The tree is what the history says, and the requests past their opening are in it. -/
structure Agrees (sys : Requests) : Prop where
  frame : ∀ other, other ≠ absolute path → sys.shared.tree.node other = tree.node other
  content : (sinceOpened sys.shared.history = none ∧ sys.shared.tree = tree) ∨
    ∃ buffers, sinceOpened sys.shared.history = some buffers ∧
      sys.shared.tree.node (absolute path) = some (.file (overlays buffers)) ∧
      ∃ created, tree.create (absolute path) = .ok created
  begun : ∀ (i : ℕ) fileBytes stage, sys.threads[i]? = some (Thread.upload fileBytes stage) →
    stage ≠ .ready → (∀ err, stage ≠ .failed err) → sinceOpened sys.shared.history ≠ none

variable {path tree requests}

/-- A download gets what the history says. -/
theorem Agrees.fileDownloading_eq {sys : Requests} (h : Agrees path tree sys) :
    FilesPath.fileDownloading sys.shared.tree path = replyAfter path tree sys.shared.history := by
  unfold replyAfter
  rcases h.content with ⟨hnone, htree⟩ | ⟨buffers, hbuffers, hnode, -⟩
  · rw [hnone, htree]
  · rw [hbuffers]
    have hread := (sys.shared.tree.readFile_eq_ok_iff (absolute path) (overlays buffers)).mpr hnode
    rw [FilesPath.fileDownloading, osReadFile, hread]

/-- No step changes whether the path can be opened for writing. -/
theorem Agrees.create_iff {sys : Requests} (h : Agrees path tree sys) :
    (∃ created, sys.shared.tree.create (absolute path) = .ok created) ↔
      ∃ created, tree.create (absolute path) = .ok created := by
  rcases h.content with ⟨-, htree⟩ | ⟨buffers, -, hnode, hopened⟩
  · rw [htree]
  · refine iff_of_true ?_ hopened
    obtain ⟨parent, name, hloc, hparent, -⟩ := (tree.create_eq_ok_iff _).mp hopened
    refine (sys.shared.tree.create_eq_ok_iff _).mpr ⟨parent, name, hloc, ?_, by simp [hnode]⟩
    rw [h.frame parent (by simp [hloc]), hparent]

/-- Steps keep the agreement. -/
theorem agrees_preserved : Interleaving.Preserved (step path) (Agrees path tree) := by
  intro mem threads thread held mem' next h hheld hstep
  have hset := Interleaving.getElem?_set_of_some hheld next
  cases move_of_step hstep with
  | opens fileBytes created hcreate =>
    obtain ⟨hself, hothers⟩ := FileTree.create_ok hcreate
    refine ⟨?_, Or.inr ⟨[], sinceOpened_concat .., hself, h.create_iff.mp ⟨created, hcreate⟩⟩, ?_⟩
    · intro other hother
      exact (hothers other hother).trans (h.frame other hother)
    · intro i other stage _ _ _
      rw [sinceOpened_concat]
      exact Option.some_ne_none _
  | refused fileBytes err hcreate =>
    refine ⟨h.frame, h.content, ?_⟩
    intro i other stage hi hready hfailed
    rw [hset] at hi
    by_cases hthread : i = thread
    · rw [if_pos hthread] at hi
      obtain ⟨-, rfl⟩ := Thread.upload.inj (Option.some.inj hi)
      exact absurd rfl (hfailed err)
    · rw [if_neg hthread] at hi
      exact h.begun i other stage hi hready hfailed
  | writes fileBytes =>
    have hopened := h.begun thread fileBytes .opened hheld nofun nofun
    obtain ⟨buffers, hbuffers, hnode, hstart⟩ :=
      h.content.resolve_left fun hnone => hopened hnone.1
    have hsince : sinceOpened (mem.history ++ [.wrote thread fileBytes]) =
        some (buffers ++ [fileBytes]) := by
      rw [sinceOpened_concat, hbuffers]
      rfl
    refine ⟨?_, Or.inr ⟨_, hsince, ?_, hstart⟩, ?_⟩
    · intro other hother
      rw [FileTree.node_write_of_ne _ _ hother]
      exact h.frame other hother
    · rw [FileTree.node_write_self hnode, overlays_concat]
      rfl
    · intro i other stage _ _ _
      rw [hsince]
      exact Option.some_ne_none _
  | closes fileBytes =>
    refine ⟨h.frame, h.content, ?_⟩
    intro i other stage hi hready hfailed
    by_cases hthread : i = thread
    · exact h.begun thread fileBytes .written hheld nofun nofun
    · rw [hset, if_neg hthread] at hi
      exact h.begun i other stage hi hready hfailed
  | replies =>
    have hsince : ∀ reply, sinceOpened (mem.history ++ [.replied thread reply]) =
        sinceOpened mem.history := fun reply => sinceOpened_concat ..
    refine ⟨h.frame, ?_, ?_⟩
    · rw [hsince]
      exact h.content
    · intro i other stage hi hready hfailed
      rw [hset] at hi
      by_cases hthread : i = thread
      · rw [if_pos hthread] at hi
        exact nomatch hi
      · rw [if_neg hthread] at hi
        rw [hsince]
        exact h.begun i other stage hi hready hfailed

/-! ## Replies -/

variable (path tree requests)

/-- Every reply is the one after the events before it, and is in the history. -/
structure Explained (sys : Requests) : Prop where
  replies : ∀ before i reply after,
    sys.shared.history = before ++ .replied i reply :: after → reply = replyAfter path tree before
  recorded : ∀ (i : ℕ) reply, sys.threads[i]? = some (Thread.download (some reply)) →
    .replied i reply ∈ sys.shared.history

variable {path tree requests}

/-- Where an event of an extended history stands. -/
theorem eq_or_of_concat_eq {history before after : List Event} {last event : Event}
    (h : history ++ [last] = before ++ event :: after) :
    (before = history ∧ event = last) ∨ ∃ rest, history = before ++ event :: rest := by
  rcases List.eq_nil_or_concat' after with rfl | ⟨rest, other, rfl⟩
  · obtain ⟨rfl, hlast⟩ := List.append_inj' h rfl
    exact Or.inl ⟨rfl, (List.singleton_inj.mp hlast).symm⟩
  · have hsplit : history ++ [last] = (before ++ event :: rest) ++ [other] := by simpa using h
    exact Or.inr ⟨rest, (List.append_inj' hsplit rfl).1⟩

/-- An event other than a reply leaves the replies explained. -/
theorem Explained.replies_concat {sys : Requests} (h : Explained path tree sys) {last : Event}
    (hlast : ∀ i reply, last ≠ .replied i reply) (before : List Event) (i : ℕ)
    (reply : Except GoError ByteString) (after : List Event)
    (hhistory : sys.shared.history ++ [last] = before ++ .replied i reply :: after) :
    reply = replyAfter path tree before := by
  rcases eq_or_of_concat_eq hhistory with ⟨-, hevent⟩ | ⟨rest, hrest⟩
  · exact absurd hevent.symm (hlast i reply)
  · exact h.replies before i reply rest hrest

/-- Steps keep the replies explained. -/
theorem explained_preserved :
    Interleaving.Preserved (step path) fun sys =>
      Agrees path tree sys ∧ Explained path tree sys := by
  refine Interleaving.Preserved.and _ agrees_preserved ?_
  intro mem threads thread held mem' next hagrees h hheld hstep
  have hset := Interleaving.getElem?_set_of_some hheld next
  -- the reply of another request is where it was
  have hothers : ∀ (i : ℕ) reply, (∀ other, next ≠ .download other) →
      (threads.set thread next)[i]? = some (Thread.download (some reply)) →
      .replied i reply ∈ mem.history := by
    intro i reply hnext hi
    rw [hset] at hi
    by_cases hthread : i = thread
    · rw [if_pos hthread] at hi
      exact absurd (Option.some.inj hi) (hnext _)
    · rw [if_neg hthread] at hi
      exact h.recorded i reply hi
  cases move_of_step hstep with
  | opens fileBytes created hcreate =>
    refine ⟨h.replies_concat nofun, ?_⟩
    intro i reply hi
    exact List.mem_append_left _ (hothers i reply nofun hi)
  | refused fileBytes err hcreate =>
    exact ⟨h.replies, fun i reply hi => hothers i reply nofun hi⟩
  | writes fileBytes =>
    refine ⟨h.replies_concat nofun, ?_⟩
    intro i reply hi
    exact List.mem_append_left _ (hothers i reply nofun hi)
  | closes fileBytes =>
    exact ⟨h.replies, fun i reply hi => hothers i reply nofun hi⟩
  | replies =>
    refine ⟨?_, ?_⟩
    · intro before i reply after hhistory
      rcases eq_or_of_concat_eq hhistory with ⟨rfl, hevent⟩ | ⟨rest, hrest⟩
      · obtain ⟨-, rfl⟩ := Event.replied.inj hevent
        exact hagrees.fileDownloading_eq
      · exact h.replies before i reply rest hrest
    · intro i reply hi
      rw [hset] at hi
      by_cases hthread : i = thread
      · rw [if_pos hthread] at hi
        obtain rfl := Option.some.inj (Thread.download.inj (Option.some.inj hi))
        rw [hthread]
        exact List.mem_append_right _ (List.mem_singleton_self _)
      · rw [if_neg hthread] at hi
        exact List.mem_append_left _ (h.recorded i reply hi)

/-! ## Writers -/

variable (path tree requests)

/-- What is written was asked for, and a file that was opened and not written is about to be. -/
structure Written (sys : Requests) : Prop where
  asked : ∀ (i : ℕ) fileBytes stage, sys.threads[i]? = some (Thread.upload fileBytes stage) →
    .fileUploading fileBytes ∈ requests
  wrote : ∀ i fileBytes, .wrote i fileBytes ∈ sys.shared.history →
    .fileUploading fileBytes ∈ requests
  pending : sinceOpened sys.shared.history = some [] →
    ∃ (i : ℕ) (fileBytes : ByteString), sys.threads[i]? = some (.upload fileBytes .opened)
  failed : ∀ (i : ℕ) fileBytes err, sys.threads[i]? = some (Thread.upload fileBytes (.failed err)) →
    ∀ created, tree.create (absolute path) ≠ .ok created
  kept : ∀ (i : ℕ) fileBytes, requests[i]? = some (FileRequest.fileUploading fileBytes) →
    ∃ stage, sys.threads[i]? = some (.upload fileBytes stage)

variable {path tree requests}

/-- A step keeps the buffer of an upload. -/
theorem Move.upload_iff {thread : ℕ} {mem mem' : Memory} {held next : Thread}
    (h : Move path thread mem held mem' next) (fileBytes : ByteString) :
    (∃ stage, held = .upload fileBytes stage) ↔ ∃ stage, next = .upload fileBytes stage := by
  cases h <;> simp

/-- Where the history has a write, there was an upload about to write. -/
theorem Move.wrote {thread : ℕ} {mem mem' : Memory} {held next : Thread}
    (h : Move path thread mem held mem' next) {i : ℕ} {fileBytes : ByteString}
    (hwrote : .wrote i fileBytes ∈ mem'.history) :
    .wrote i fileBytes ∈ mem.history ∨ held = .upload fileBytes .opened := by
  cases h with
  | opens other created hcreate => simpa using hwrote
  | refused other err hcreate => exact Or.inl hwrote
  | writes other =>
    rcases List.mem_append.mp hwrote with hold | hnew
    · exact Or.inl hold
    · obtain ⟨-, rfl⟩ := Event.wrote.inj (List.mem_singleton.mp hnew)
      exact Or.inr rfl
  | closes other => exact Or.inl hwrote
  | replies => simpa using hwrote

/-- An empty file is about to be written: by the request that took the step, or by one that was
about to write before it. -/
theorem Move.pending {thread : ℕ} {mem mem' : Memory} {held next : Thread}
    (h : Move path thread mem held mem' next) (hempty : sinceOpened mem'.history = some []) :
    (∃ fileBytes, next = .upload fileBytes .opened) ∨
      (sinceOpened mem.history = some [] ∧ ∀ fileBytes, held ≠ .upload fileBytes .opened) := by
  cases h with
  | opens fileBytes created hcreate => exact Or.inl ⟨fileBytes, rfl⟩
  | refused fileBytes err hcreate => exact Or.inr ⟨hempty, nofun⟩
  | writes fileBytes =>
    rw [sinceOpened_concat] at hempty
    obtain ⟨buffers, -, hbuffers⟩ := Option.map_eq_some_iff.mp hempty
    exact absurd hbuffers (List.concat_ne_nil _ _)
  | closes fileBytes => exact Or.inr ⟨hempty, nofun⟩
  | replies =>
    rw [sinceOpened_concat] at hempty
    exact Or.inr ⟨hempty, nofun⟩

/-- An upload fails only when the path cannot be opened. -/
theorem Move.failed {thread : ℕ} {mem mem' : Memory} {held : Thread} {fileBytes : ByteString}
    {err : GoError} (h : Move path thread mem held mem' (.upload fileBytes (.failed err)))
    (created : FileTree) : mem.tree.create (absolute path) ≠ .ok created := by
  cases h with
  | refused other err hcreate => exact hcreate created

/-- Steps keep what is known about the writers. -/
theorem written_preserved :
    Interleaving.Preserved (step path) fun sys =>
      Agrees path tree sys ∧ Written path tree requests sys := by
  refine Interleaving.Preserved.and _ agrees_preserved ?_
  intro mem threads thread held mem' next hagrees h hheld hstep
  have hset := Interleaving.getElem?_set_of_some hheld next
  have hmove := move_of_step hstep
  refine ⟨?_, ?_, ?_, ?_, ?_⟩
  · intro i fileBytes stage hi
    rw [hset] at hi
    by_cases hthread : i = thread
    · rw [if_pos hthread] at hi
      obtain ⟨before, rfl⟩ := (hmove.upload_iff fileBytes).mpr ⟨stage, Option.some.inj hi⟩
      exact h.asked thread fileBytes before hheld
    · rw [if_neg hthread] at hi
      exact h.asked i fileBytes stage hi
  · intro i fileBytes hwrote
    rcases hmove.wrote hwrote with hold | rfl
    · exact h.wrote i fileBytes hold
    · exact h.asked thread fileBytes .opened hheld
  · intro hempty
    rcases hmove.pending hempty with ⟨fileBytes, rfl⟩ | ⟨hbefore, hnot⟩
    · refine ⟨thread, fileBytes, ?_⟩
      rw [hset, if_pos rfl]
    · obtain ⟨i, fileBytes, hi⟩ := h.pending hbefore
      have hthread : i ≠ thread := by
        rintro rfl
        exact hnot fileBytes (Option.some.inj (hheld.symm.trans hi))
      refine ⟨i, fileBytes, ?_⟩
      rw [hset, if_neg hthread]
      exact hi
  · intro i fileBytes err hi created hcreated
    rw [hset] at hi
    by_cases hthread : i = thread
    · rw [if_pos hthread] at hi
      obtain rfl := Option.some.inj hi
      obtain ⟨now, hnow⟩ := hagrees.create_iff.mpr ⟨created, hcreated⟩
      exact hmove.failed now hnow
    · rw [if_neg hthread] at hi
      exact h.failed i fileBytes err hi created hcreated
  · intro i fileBytes hi
    obtain ⟨stage, hstage⟩ := h.kept i fileBytes hi
    by_cases hthread : i = thread
    · subst hthread
      obtain ⟨after, rfl⟩ := (hmove.upload_iff fileBytes).mp
        ⟨stage, Option.some.inj (hheld.symm.trans hstage)⟩
      exact ⟨after, by rw [hset, if_pos rfl]⟩
    · exact ⟨stage, by rw [hset, if_neg hthread, hstage]⟩

end Invariants

/-! ## Every schedule -/

section Runs

variable (path : ByteString) (tree : FileTree) (requests : List FileRequest) (schedule : List ℕ)

/-- What holds before the first step. -/
theorem start_invariants :
    Agrees path tree (start tree requests) ∧ Explained path tree (start tree requests) ∧
      Written path tree requests (start tree requests) := by
  have hthread : ∀ i : ℕ, (start tree requests).threads[i]? =
      requests[i]?.map FileRequest.thread := fun i => List.getElem?_map ..
  have hupload : ∀ (i : ℕ) fileBytes stage,
      (start tree requests).threads[i]? = some (Thread.upload fileBytes stage) →
      stage = .ready ∧ requests[i]? = some (.fileUploading fileBytes) := by
    intro i fileBytes stage hi
    rw [hthread] at hi
    obtain ⟨request, hrequest, hready⟩ := Option.map_eq_some_iff.mp hi
    cases request with
    | fileDownloading => exact nomatch hready
    | fileUploading other =>
      obtain ⟨rfl, rfl⟩ := Thread.upload.inj hready
      exact ⟨rfl, hrequest⟩
  refine ⟨⟨fun _ _ => rfl, Or.inl ⟨rfl, rfl⟩, ?_⟩, ⟨?_, ?_⟩, ⟨?_, ?_, ?_, ?_, ?_⟩⟩
  · intro i fileBytes stage hi hready
    exact absurd (hupload i fileBytes stage hi).1 hready
  · intro before i reply after hhistory
    exact absurd hhistory (by simp [start])
  · intro i reply hi
    rw [hthread] at hi
    obtain ⟨request, -, hready⟩ := Option.map_eq_some_iff.mp hi
    cases request <;> exact nomatch hready
  · intro i fileBytes stage hi
    exact List.mem_of_getElem? (hupload i fileBytes stage hi).2
  · intro i fileBytes hwrote
    exact absurd hwrote List.not_mem_nil
  · intro hempty
    exact nomatch hempty
  · intro i fileBytes err hi
    exact nomatch (hupload i fileBytes _ hi).1
  · intro i fileBytes hi
    exact ⟨.ready, by rw [hthread, hi]; rfl⟩

/-- The tree agrees with the history after every schedule. -/
theorem agrees_run : Agrees path tree (run path tree requests schedule) :=
  Interleaving.run_invariant _ agrees_preserved (start_invariants path tree requests).1 schedule

/-- Every reply is explained after every schedule. -/
theorem explained_run : Explained path tree (run path tree requests schedule) := by
  obtain ⟨hagrees, hexplained, -⟩ := start_invariants path tree requests
  exact (Interleaving.run_invariant _ explained_preserved ⟨hagrees, hexplained⟩ schedule).2

/-- What is known about the writers holds after every schedule. -/
theorem written_run : Written path tree requests (run path tree requests schedule) := by
  obtain ⟨hagrees, -, hwritten⟩ := start_invariants path tree requests
  exact (Interleaving.run_invariant _ written_preserved ⟨hagrees, hwritten⟩ schedule).2

end Runs

/-- Every upload has closed its file or failed to open it. -/
def UploadsFinished (sys : Requests) : Prop :=
  ∀ fileBytes stage, .upload fileBytes stage ∈ sys.threads →
    stage = .closed ∨ ∃ err, stage = .failed err

section Atomicity

variable (path : ByteString) (tree : FileTree) (requests : List FileRequest)

/-- Downloads as they would be if each upload replaced the file at once: every one returns the
earlier content or a complete buffer. -/
def RepliesAtomic : Prop :=
  ∀ schedule reply, .download (some reply) ∈ (run path tree requests schedule).threads →
    reply = FilesPath.fileDownloading tree path ∨
      ∃ fileBytes, .fileUploading fileBytes ∈ requests ∧ reply = .ok fileBytes

/-- The file as it would be then: in the end it is one of the buffers. -/
def ContentAtomic : Prop :=
  ∀ schedule, UploadsFinished (run path tree requests schedule) →
    (∃ created, tree.create (absolute path) = .ok created) →
    (∃ fileBytes, .fileUploading fileBytes ∈ requests) →
    ∃ fileBytes, .fileUploading fileBytes ∈ requests ∧
      FilesPath.fileDownloading (run path tree requests schedule).shared.tree path = .ok fileBytes

end Atomicity

/-- When all uploads of a path that can be opened have finished, some buffer was written since the
last opening. -/
theorem sinceOpened_of_finished {path : ByteString} {tree : FileTree}
    {requests : List FileRequest} {schedule : List ℕ}
    (hfinished : UploadsFinished (run path tree requests schedule))
    (hopen : ∃ created, tree.create (absolute path) = .ok created)
    (hupload : ∃ fileBytes, .fileUploading fileBytes ∈ requests) :
    ∃ buffers last, sinceOpened (run path tree requests schedule).shared.history =
      some (buffers ++ [last]) := by
  have hagrees := agrees_run path tree requests schedule
  have hwritten := written_run path tree requests schedule
  obtain ⟨created, hcreated⟩ := hopen
  obtain ⟨fileBytes, hmem⟩ := hupload
  obtain ⟨i, hi⟩ := List.mem_iff_getElem?.mp hmem
  obtain ⟨stage, hstage⟩ := hwritten.kept i fileBytes hi
  have hclosed : stage = .closed := by
    rcases hfinished fileBytes stage (List.mem_of_getElem? hstage) with hclosed | ⟨err, rfl⟩
    · exact hclosed
    · exact absurd hcreated (hwritten.failed i fileBytes err hstage created)
  subst hclosed
  have hsome := hagrees.begun i fileBytes .closed hstage nofun nofun
  obtain ⟨buffers, hbuffers⟩ := Option.ne_none_iff_exists'.mp hsome
  rcases List.eq_nil_or_concat' buffers with rfl | ⟨rest, last, rfl⟩
  · -- the request that is about to write has not finished
    obtain ⟨j, other, hj⟩ := hwritten.pending hbuffers
    rcases hfinished other .opened (List.mem_of_getElem? hj) with hbad | ⟨err, hbad⟩
    · exact nomatch hbad
    · exact nomatch hbad
  · exact ⟨rest, last, hbuffers⟩

/-- After every schedule: each download got what the events before it say, the file holds what
the history says, all buffers are those of the requests, and nothing changes at other locations,
nor anywhere when the path cannot be opened. An opened path holds the buffers written since it was
last opened, laid over each other; when all uploads have finished, the last of these buffers is
complete, and is the whole content exactly when none of them is longer. -/
theorem content_of_schedule (path : ByteString) (tree : FileTree) (requests : List FileRequest)
    (schedule : List ℕ) :
    let reached := run path tree requests schedule
    (∀ (i : ℕ) reply, reached.threads[i]? = some (.download (some reply)) →
      ∃ before after, reached.shared.history = before ++ .replied i reply :: after ∧
        reply = replyAfter path tree before) ∧
    FilesPath.fileDownloading reached.shared.tree path =
      replyAfter path tree reached.shared.history ∧
    (∀ before, before <+: reached.shared.history → ∀ buffers, sinceOpened before = some buffers →
      ∀ fileBytes ∈ buffers, .fileUploading fileBytes ∈ requests) ∧
    (∀ other, other ≠ absolute path → reached.shared.tree.node other = tree.node other) ∧
    ((∀ created, tree.create (absolute path) ≠ .ok created) → reached.shared.tree = tree ∧
      FilesPath.fileDownloading reached.shared.tree path = FilesPath.fileDownloading tree path) ∧
    (UploadsFinished reached → (∃ created, tree.create (absolute path) = .ok created) →
      (∃ fileBytes, .fileUploading fileBytes ∈ requests) →
      ∃ buffers last, sinceOpened reached.shared.history = some (buffers ++ [last]) ∧
        FilesPath.fileDownloading reached.shared.tree path =
          .ok (last ++ (overlays buffers).drop last.length) ∧
        (FilesPath.fileDownloading reached.shared.tree path = .ok last ↔
          ∀ buffer ∈ buffers, buffer.length ≤ last.length)) := by
  intro reached
  have hagrees := agrees_run path tree requests schedule
  have hexplained := explained_run path tree requests schedule
  have hwritten := written_run path tree requests schedule
  refine ⟨?_, hagrees.fileDownloading_eq, ?_, hagrees.frame, ?_, ?_⟩
  · intro i reply hi
    obtain ⟨before, after, hsplit⟩ := List.append_of_mem (hexplained.recorded i reply hi)
    exact ⟨before, after, hsplit, hexplained.replies before i reply after hsplit⟩
  · intro before hbefore buffers hbuffers fileBytes hmem
    obtain ⟨i, hwrote⟩ := wrote_of_mem_sinceOpened hbuffers hmem
    exact hwritten.wrote i fileBytes (hbefore.subset hwrote)
  · intro hclosed
    rcases hagrees.content with ⟨-, htree⟩ | ⟨-, -, -, created, hcreated⟩
    · exact ⟨htree, congrArg (FilesPath.fileDownloading · path) htree⟩
    · exact absurd hcreated (hclosed created)
  · intro hfinished hopen hupload
    obtain ⟨buffers, last, hbuffers⟩ := sinceOpened_of_finished hfinished hopen hupload
    have hreply : FilesPath.fileDownloading reached.shared.tree path =
        .ok (overlays (buffers ++ [last])) := by
      rw [hagrees.fileDownloading_eq, replyAfter, hbuffers]
    refine ⟨buffers, last, hbuffers, ?_, ?_⟩
    · rw [hreply, overlays_concat]
    · rw [hreply, Except.ok.injEq, overlays_concat_eq_iff]

/-- Two uploads and a download. -/
def sampleRequests : List FileRequest :=
  [.fileUploading [1, 1], .fileUploading [2], .fileDownloading]

/-- A download between the opening and the write of an upload gets an empty file, and two uploads
that open the file before either writes leave a mixture of their buffers. -/
theorem not_atomic : ¬ RepliesAtomic (ascii "/f") .empty sampleRequests ∧
    ¬ ContentAtomic (ascii "/f") .empty sampleRequests := by
  constructor
  · intro hatomic
    have hreply : (run (ascii "/f") .empty sampleRequests [0, 2]).threads =
        [.upload [1, 1] .opened, .upload [2] .ready, .download (some (.ok []))] := by
      rfl
    have hmissing : FilesPath.fileDownloading .empty (ascii "/f") =
        .error (ascii "open /f: no such file or directory") := by
      rfl
    rcases hatomic [0, 2] (.ok []) (by rw [hreply]; simp) with hbefore | ⟨fileBytes, hasked, hbytes⟩
    · rw [hmissing] at hbefore
      exact nomatch hbefore
    · obtain rfl := Except.ok.inj hbytes
      exact absurd hasked (by decide)
  · intro hatomic
    have hthreads : (run (ascii "/f") .empty sampleRequests [0, 1, 0, 0, 1, 1]).threads =
        [.upload [1, 1] .closed, .upload [2] .closed, .download none] := by
      rfl
    have hmixed : FilesPath.fileDownloading
        (run (ascii "/f") .empty sampleRequests [0, 1, 0, 0, 1, 1]).shared.tree (ascii "/f") =
          .ok [2, 1] := by
      rfl
    obtain ⟨fileBytes, hasked, hcontent⟩ := hatomic [0, 1, 0, 0, 1, 1] (by
      intro fileBytes stage hmem
      rw [hthreads] at hmem
      simp only [List.mem_cons, Thread.upload.injEq, List.not_mem_nil, or_false, reduceCtorEq] at hmem
      exact .inl (hmem.elim And.right And.right)) ⟨_, rfl⟩ ⟨[2], by decide⟩
    obtain rfl := Except.ok.inj (hmixed.symm.trans hcontent)
    exact absurd hasked (by decide)

end Concurrent

end RepoManager
