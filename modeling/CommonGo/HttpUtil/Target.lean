import CommonGo.Go.File
import CommonGo.HttpUtil.Download

/-!
# What a download leaves on disk

`DownloadFile` opens its target for writing and creates it if it is absent, but does not truncate
it.  The body of the response is copied over the start of what the file had before.
-/

namespace CommonGo.HttpUtil

open Go

variable {ε : Type}

/-! ## One download and its file -/

/-- What the other side does in one download: the error of the request, the status code and the body
of the response or the error of `Do`, the error of opening the file, and the writes that fail. -/
structure Delivery (ε : Type) where
  /-- The error of making the request. -/
  request : Option ε
  /-- The status code and the body, or the error of `Do`. -/
  response : Except ε (Nat × File.Reads ε)
  /-- The error of opening the file. -/
  openFile : Option ε
  /-- How many bytes the write with a number makes before it fails, and its error. -/
  write : Nat → Option (Nat × ε)

/-- The regular files.  A string stands for the file that it names: two paths of one file, such as
`a` and `./a`, would be one string here. -/
abbrev FileSystem := String → Option Bytes

/-- `os.O_WRONLY|os.O_CREATE`. -/
def targetFlags : File.Flags := { create := true, truncate := false }

/-- The target, open for writing. -/
def openTarget (files : FileSystem) (targetPath : String) : File.Descriptor :=
  .start ((File.opened targetFlags (files targetPath)).getD [])

/-- `DownloadFile`: its error, and the files after it.  Errors of closing are only logged. -/
def downloadFileTo (delivery : Delivery ε) (files : FileSystem) (targetPath : String) :
    Option (Error (Cause ε)) × FileSystem :=
  match delivery.request with
  | some err => (wrap (some (.base (.other err))) "failed to create HTTP request", files)
  | none =>
      match delivery.response with
      | .error err => (wrap (some (.base (.other err))) "failed to download file", files)
      | .ok (status, body) =>
          if status ≠ 200 then
            (wrap (some (.base .unexpectedHTTPStatusCode)) ("status code: " ++ toString status),
              files)
          else
            match delivery.openFile with
            | some err => (wrap (some (.base (.other err))) "failed to create local file", files)
            | none =>
                let copied := File.copy delivery.write (openTarget files targetPath) body
                (wrap (copied.2.map (.base <| .other ·)) "failed to write file",
                  Function.update files targetPath (some copied.1.content))

/-- How the operations of the download end. -/
def Delivery.exchange (delivery : Delivery ε) (files : FileSystem) (targetPath : String) :
    Exchange ε where
  request := delivery.request
  response := delivery.response.map Prod.fst
  openFile := delivery.openFile
  copy :=
    match delivery.response with
    | .error _ => none
    | .ok (_, body) => (File.copy delivery.write (openTarget files targetPath) body).2

/-- With its file in view, `DownloadFile` returns the errors that it returns without it. -/
theorem downloadFileTo_fst (delivery : Delivery ε) (files : FileSystem) (targetPath : String) :
    (downloadFileTo delivery files targetPath).1 =
      downloadFile (delivery.exchange files targetPath) := by
  obtain ⟨request, response, openFile, write⟩ := delivery
  cases request with
  | some err => rfl
  | none =>
      cases response with
      | error err => rfl
      | ok response =>
          obtain ⟨status, body⟩ := response
          simp only [downloadFileTo, downloadFile, Delivery.exchange, Except.map]
          split_ifs
          · rfl
          · cases openFile <;> rfl

/-! ## The content of the target -/

variable {delivery : Delivery ε} {files : FileSystem} {targetPath : String}

theorem openTarget_eq :
    openTarget files targetPath = .start ((files targetPath).getD []) := by
  rw [openTarget]
  cases files targetPath <;> rfl

/-- A download fails before it opens the target, or it copies the body of a response to it. -/
theorem downloadFileTo_cases (delivery : Delivery ε) (files : FileSystem) (targetPath : String) :
    (∃ err, downloadFileTo delivery files targetPath = (some err, files)) ∨
      ∃ body, delivery.response = .ok (200, body) ∧
        downloadFileTo delivery files targetPath =
          let copied := File.copy delivery.write (openTarget files targetPath) body
          (wrap (copied.2.map (.base <| .other ·)) "failed to write file",
            Function.update files targetPath (some copied.1.content)) := by
  obtain ⟨request, response, openFile, write⟩ := delivery
  cases request with
  | some err => exact Or.inl ⟨_, rfl⟩
  | none =>
      cases response with
      | error err => exact Or.inl ⟨_, rfl⟩
      | ok response =>
          obtain ⟨status, body⟩ := response
          by_cases good : status = 200
          · subst good
            cases openFile with
            | some err => exact Or.inl ⟨_, rfl⟩
            | none => exact Or.inr ⟨body, rfl, rfl⟩
          · exact Or.inl ⟨_, if_pos good⟩

/-- A download without an error has copied the whole body of a response. -/
theorem eq_of_downloaded (returned : (downloadFileTo delivery files targetPath).1 = none) :
    ∃ body, delivery.response = .ok (200, body) ∧ body.ending = .eof ∧
      (downloadFileTo delivery files targetPath).2 =
        Function.update files targetPath
          (some (body.content ++ ((files targetPath).getD []).drop body.content.length)) := by
  rcases downloadFileTo_cases delivery files targetPath with ⟨err, failed⟩ | ⟨body, found, result⟩
  · rw [failed] at returned
    cases returned
  · rw [result] at returned ⊢
    obtain ⟨written, _, after, whole⟩ :=
      File.copy_spec delivery.write (openTarget files targetPath) body
    have copied : (File.copy delivery.write (openTarget files targetPath) body).2 = none := by
      simpa [wrap] using returned
    obtain ⟨rfl, ended⟩ := whole copied
    have content := File.Descriptor.content_put_start ((files targetPath).getD []) body.content
    rw [← openTarget_eq, ← after] at content
    exact ⟨body, found, ended, congrArg (Function.update files targetPath ∘ some) content⟩

/-- No file but the target is touched, whatever happens. -/
theorem downloadFileTo_other {path : String} (other : path ≠ targetPath) :
    (downloadFileTo delivery files targetPath).2 path = files path := by
  rcases downloadFileTo_cases delivery files targetPath with ⟨err, failed⟩ | ⟨body, _, result⟩
  · rw [failed]
  · rw [result]
    exact Function.update_of_ne other _ _

/-- A successful download leaves exactly the body in the target if and only if the target was absent
or not longer than the body. -/
theorem target_eq_body_iff {body : File.Reads ε} (delivered : delivery.response = .ok (200, body))
    (returned : (downloadFileTo delivery files targetPath).1 = none) :
    (downloadFileTo delivery files targetPath).2 targetPath = some body.content ↔
      ∀ prior, files targetPath = some prior → prior.length ≤ body.content.length := by
  obtain ⟨same, found, _, result⟩ := eq_of_downloaded returned
  rw [delivered] at found
  cases found
  rw [result, Function.update_self, Option.some.injEq, eq_comm, List.self_eq_append_right,
    List.drop_eq_nil_iff]
  cases files targetPath with
  | none => simp
  | some prior => simp

/-- A body that comes in three chunks of one byte. -/
def threeBytes : File.Reads Unit := { chunks := [[0x78], [0x79]], last := [0x7A], ending := .eof }

/-- A download in which nothing fails. -/
def undisturbed : Delivery Unit where
  request := none
  response := .ok (200, threeBytes)
  openFile := none
  write _ := none

/-- A file system in which every file has this content. -/
def everyFile (content : Bytes) : FileSystem := fun _ => some content

theorem target_eq_body_sample :
    (downloadFileTo undisturbed (everyFile [0x61, 0x62]) "out").1 = none ∧
      (downloadFileTo undisturbed (everyFile [0x61, 0x62]) "out").2 "out" =
        some threeBytes.content := by
  have returned : (downloadFileTo undisturbed (everyFile [0x61, 0x62]) "out").1 = none := rfl
  refine ⟨returned, (target_eq_body_iff rfl returned).mpr fun prior found => ?_⟩
  cases found
  decide

/-- What a longer file had behind the third byte is still there. -/
theorem longer_target_keeps_tail :
    (downloadFileTo undisturbed (everyFile [0x61, 0x62, 0x63, 0x64, 0x65]) "out").1 = none ∧
      threeBytes.content = [0x78, 0x79, 0x7A] ∧
      (downloadFileTo undisturbed (everyFile [0x61, 0x62, 0x63, 0x64, 0x65]) "out").2 "out" =
        some [0x78, 0x79, 0x7A, 0x64, 0x65] :=
  ⟨rfl, rfl, rfl⟩

end CommonGo.HttpUtil
