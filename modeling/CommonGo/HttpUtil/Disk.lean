import CommonGo.Go.Writers
import CommonGo.HttpUtil.Target

/-!
# What `DownloadFiles` leaves on disk

The workers of `DownloadFiles` share the file system.  A worker that downloads opens its target and
writes the chunks of the body one at a time, and the steps of the others come between.  Seen without
the files this is the system of the workers, and what the files hold in the end is a blend of the
bodies.
-/

namespace CommonGo.HttpUtil

open Go Program

variable {ε : Type}

/-! ## The system -/

/-- The body that a download comes to copy, if it opens its target at all. -/
def Delivery.body? (delivery : Delivery ε) : Option (File.Reads ε) :=
  match delivery.request, delivery.response, delivery.openFile with
  | none, .ok (status, body), none => if status ≠ 200 then none else some body
  | _, _, _ => none

/-- The chunks that `io.Copy` reads. -/
def chunksOf (body : File.Reads ε) : List Bytes := body.chunks ++ [body.last]

/-- How far a worker is with its target: the bytes it has written, which give the position in the
file, the number of its writes and the chunks it has not read yet. -/
inductive Transfer where
  | before
  | copying (written : Bytes) (writes : Nat) (left : List Bytes)
  | ended (written : Bytes)

/-- What a worker has written so far. -/
def Transfer.written : Transfer → Bytes
  | before => []
  | copying written _ _ => written
  | ended written => written

/-- The workers, the files and how far each worker is with its target. -/
structure Disk (ε : Type) (size : Nat) where
  /-- The workers and what they share. -/
  base : State ε size
  /-- The files on the disk. -/
  files : FileSystem
  /-- How far each worker is with its target. -/
  transfer : Fin size → Transfer

/-- What a file holds. -/
def contentOf (files : FileSystem) (path : String) : Bytes := (files path).getD []

section System

variable (files : Files) (deliveries : Fin files.size → Delivery ε)
  (text : Error (Cause ε) → String)

/-- How the operations of a download end, which does not depend on the files. -/
def exchanges (i : Fin files.size) : Exchange ε :=
  (deliveries i).exchange (fun _ => none) (files.targetPath i)

namespace Disk

/-- The disk before the first step. -/
def start (prior : FileSystem) : Disk ε files.size :=
  { base := HttpUtil.start files, files := prior, transfer := fun _ => .before }

/-- A step that does not concern the files. -/
def baseStep (disk : Disk ε files.size) (party : Party files.size) : Option (Disk ε files.size) :=
  (HttpUtil.step files (exchanges files deliveries) text disk.base party).map fun base =>
    { disk with base }

/-- A write of a worker at its position. -/
def write (disk : Disk ε files.size) (i : Fin files.size) (written data : Bytes)
    (after : Transfer) : Disk ε files.size :=
  let path := files.targetPath i
  { disk with
    files := Function.update disk.files path
      (some (overwrite (contentOf disk.files path) written.length data))
    transfer := Function.update disk.transfer i after }

/-- A step of a worker in `DownloadFile`. -/
def downloadStep (disk : Disk ε files.size) (i : Fin files.size) : Option (Disk ε files.size) :=
  match disk.transfer i with
  | .before =>
      match (deliveries i).body? with
      | none => disk.baseStep files deliveries text (.worker i)
      | some body => some { disk with
          files := Function.update disk.files (files.targetPath i)
            (File.opened targetFlags (disk.files (files.targetPath i)))
          transfer := Function.update disk.transfer i (.copying [] 0 (chunksOf body)) }
  | .copying written writes (chunk :: left) =>
      if chunk.length > 0 then
        match (deliveries i).write writes with
        | none => some (disk.write files i written chunk
            (.copying (written ++ chunk) (writes + 1) left))
        | some (count, _) => some (disk.write files i written (chunk.take count)
            (.ended (written ++ chunk.take count)))
      else some { disk with
        transfer := Function.update disk.transfer i (.copying written writes left) }
  | .copying written _ [] => some { disk with
      transfer := Function.update disk.transfer i (.ended written) }
  | .ended _ => disk.baseStep files deliveries text (.worker i)

/-- One step of a party. -/
def step (disk : Disk ε files.size) : Party files.size → Option (Disk ε files.size)
  | .main => disk.baseStep files deliveries text .main
  | .worker i =>
      match disk.base.worker i with
      | .downloading => disk.downloadStep files deliveries text i
      | _ => disk.baseStep files deliveries text (.worker i)

end Disk

end System

/-! ## Without the files -/

variable {files : Files} {deliveries : Fin files.size → Delivery ε}
  {text : Error (Cause ε) → String} {disk next : Disk ε files.size} {prior : FileSystem}
  {i : Fin files.size} {party : Party files.size}

/-- What a step does to the files. -/
inductive Disk.Effect (files : Files) (deliveries : Fin files.size → Delivery ε)
    (text : Error (Cause ε) → String) (disk : Disk ε files.size) :
    Party files.size → Disk ε files.size → Prop
  | base {party : Party files.size} {base : State ε files.size}
      (stepped : HttpUtil.step files (exchanges files deliveries) text disk.base party = some base)
      (ended : ∀ i, party = .worker i → disk.base.worker i = .downloading →
        (disk.transfer i = .before ∧ (deliveries i).body? = none) ∨
          ∃ written, disk.transfer i = .ended written) :
      Effect files deliveries text disk party { disk with base }
  | opens {i : Fin files.size} {body : File.Reads ε}
      (phase : disk.base.worker i = .downloading) (before : disk.transfer i = .before)
      (found : (deliveries i).body? = some body) :
      Effect files deliveries text disk (.worker i) { disk with
        files := Function.update disk.files (files.targetPath i)
          (File.opened targetFlags (disk.files (files.targetPath i)))
        transfer := Function.update disk.transfer i (.copying [] 0 (chunksOf body)) }
  | writes {i : Fin files.size} {written chunk : Bytes} {writes : Nat} {left : List Bytes}
      (phase : disk.base.worker i = .downloading)
      (before : disk.transfer i = .copying written writes (chunk :: left))
      (something : chunk.length > 0) (whole : (deliveries i).write writes = none) :
      Effect files deliveries text disk (.worker i) (disk.write files i written chunk
        (.copying (written ++ chunk) (writes + 1) left))
  | fails {i : Fin files.size} {written chunk : Bytes} {writes count : Nat} {err : ε}
      {left : List Bytes} (phase : disk.base.worker i = .downloading)
      (before : disk.transfer i = .copying written writes (chunk :: left))
      (something : chunk.length > 0) (fault : (deliveries i).write writes = some (count, err)) :
      Effect files deliveries text disk (.worker i) (disk.write files i written (chunk.take count)
        (.ended (written ++ chunk.take count)))
  | skips {i : Fin files.size} {written : Bytes} {writes : Nat} {left : List Bytes}
      (phase : disk.base.worker i = .downloading)
      (before : disk.transfer i = .copying written writes ([] :: left)) :
      Effect files deliveries text disk (.worker i) { disk with
        transfer := Function.update disk.transfer i (.copying written writes left) }
  | ends {i : Fin files.size} {written : Bytes} {writes : Nat}
      (phase : disk.base.worker i = .downloading)
      (before : disk.transfer i = .copying written writes []) :
      Effect files deliveries text disk (.worker i) { disk with
        transfer := Function.update disk.transfer i (.ended written) }

theorem Disk.effect_of_baseStep (stepped : disk.baseStep files deliveries text party = some next)
    (ended : ∀ i, party = .worker i → disk.base.worker i = .downloading →
      (disk.transfer i = .before ∧ (deliveries i).body? = none) ∨
        ∃ written, disk.transfer i = .ended written) :
    disk.Effect files deliveries text party next := by
  obtain ⟨base, moved, rfl⟩ := Option.map_eq_some_iff.mp stepped
  exact .base moved ended

theorem Disk.effect_of_downloadStep (phase : disk.base.worker i = .downloading)
    (stepped : disk.downloadStep files deliveries text i = some next) :
    disk.Effect files deliveries text (.worker i) next := by
  unfold downloadStep at stepped
  split at stepped
  · rename_i before
    split at stepped
    · rename_i missing
      refine effect_of_baseStep stepped fun j same _ => ?_
      cases same
      exact Or.inl ⟨before, missing⟩
    · rename_i body found
      cases stepped
      exact .opens phase before found
  · rename_i written writes chunk left before
    split at stepped
    · rename_i something
      split at stepped
      · rename_i whole
        cases stepped
        exact .writes phase before something whole
      · rename_i count err fault
        cases stepped
        exact .fails phase before something fault
    · rename_i nothing
      obtain rfl : chunk = [] := List.length_eq_zero_iff.mp (by omega)
      cases stepped
      exact .skips phase before
  · rename_i written writes before
    cases stepped
    exact .ends phase before
  · rename_i written before
    refine effect_of_baseStep stepped fun j same _ => ?_
    cases same
    exact Or.inr ⟨written, before⟩

theorem Disk.effect_of_step (stepped : disk.step files deliveries text party = some next) :
    disk.Effect files deliveries text party next := by
  cases party with
  | main => exact effect_of_baseStep stepped (by simp)
  | worker i =>
      simp only [step] at stepped
      split at stepped
      · rename_i phase
        exact effect_of_downloadStep phase stepped
      · rename_i other
        refine effect_of_baseStep stepped fun j same phase => ?_
        cases same
        exact absurd phase other

/-- Seen without the files, a step is one of the workers' system or none. -/
theorem Disk.Effect.sound (effect : disk.Effect files deliveries text party next)
    (sound : Sound files (exchanges files deliveries) text disk.base) :
    Sound files (exchanges files deliveries) text next.base := by
  cases effect with
  | base stepped _ => exact sound.step stepped
  | opens _ _ _ => exact sound
  | writes _ _ _ _ => exact sound
  | fails _ _ _ _ => exact sound
  | skips _ _ => exact sound
  | ends _ _ => exact sound

/-! ## How far a worker is -/

/-- A worker that has not got past `DownloadFile`. -/
def Worker.fresh : Worker ε → Bool
  | absent => true
  | queued => true
  | downloading => true
  | _ => false

/-- What a worker has written and what it has still to write make up the body, and the error that it
will end with is that of the whole copy. -/
def Tracks (delivery : Delivery ε) (phase : Worker ε) : Transfer → Prop
  | .before => phase.fresh = true ∨ delivery.body? = none
  | .copying written writes left => phase = .downloading ∧ ∃ body,
      delivery.body? = some body ∧ written ++ left.flatten = body.content ∧
        ∀ file, (File.copyChunks delivery.write left writes file).2 =
          (File.copyChunks delivery.write (chunksOf body) 0 file).2
  | .ended written => ∃ body, delivery.body? = some body ∧
      ∀ file, (File.copyChunks delivery.write (chunksOf body) 0 file).2 = none →
        written = body.content

/-- A step of the workers' system moves a worker past `DownloadFile` only if it is its own. -/
theorem fresh_step {state after : State ε files.size} {exchange : Fin files.size → Exchange ε}
    (sound : Sound files exchange text state)
    (stepped : HttpUtil.step files exchange text state party = some after) (i : Fin files.size) :
    party = .worker i ∧ state.worker i = .downloading ∨
      (state.worker i).fresh = false ∨
      after.worker i = state.worker i ∨
      state.worker i ≠ .downloading ∧ (after.worker i).fresh = true := by
  cases party with
  | main =>
      simp only [HttpUtil.step, mainStep] at stepped
      split at stepped
      · rename_i count point
        split at stepped
        · rename_i more
          cases stepped
          by_cases here : i = ⟨count, more⟩
          · subst here
            have inPlace := sound.inPlace
            simp only [InPlace, point] at inPlace
            have absent := (inPlace.2.2.2 ⟨count, more⟩).mpr le_rfl
            refine Or.inr (Or.inr (Or.inr ⟨?_, ?_⟩))
            · rw [absent]
              simp
            · simp [Worker.fresh]
          · exact Or.inr (Or.inr (Or.inl (Function.update_of_ne here _ _)))
        · cases stepped
          exact Or.inr (Or.inr (Or.inl rfl))
      · split at stepped
        · cases stepped
          exact Or.inr (Or.inr (Or.inl rfl))
        · cases stepped
      · cases stepped
        exact Or.inr (Or.inr (Or.inl rfl))
      · split at stepped
        · cases stepped
          exact Or.inr (Or.inr (Or.inl rfl))
        · split at stepped
          · cases stepped
            exact Or.inr (Or.inr (Or.inl rfl))
          · cases stepped
      · cases stepped
  | worker j =>
      have move := workerMove_of_step stepped
      by_cases here : i = j
      · subst here
        cases move with
        | acquire phase _ =>
            refine Or.inr (Or.inr (Or.inr ⟨?_, by simp [Worker.fresh]⟩))
            rw [phase]
            simp
        | fail phase _ => exact Or.inl ⟨rfl, phase⟩
        | succeed phase _ => exact Or.inl ⟨rfl, phase⟩
        | panic phase _ => exact Or.inr (Or.inl (by rw [phase]; rfl))
        | report phase _ _ => exact Or.inr (Or.inl (by rw [phase]; rfl))
        | release phase _ => exact Or.inr (Or.inl (by rw [phase]; rfl))
        | leave phase => exact Or.inr (Or.inl (by rw [phase]; rfl))
      · obtain ⟨_, _, after', worker, _⟩ := move.left
        rw [worker]
        exact Or.inr (Or.inr (Or.inl (Function.update_of_ne here _ _)))

theorem Tracks.base {base : State ε files.size}
    (tracks : Tracks (deliveries i) (disk.base.worker i) (disk.transfer i))
    (sound : Sound files (exchanges files deliveries) text disk.base)
    (stepped : HttpUtil.step files (exchanges files deliveries) text disk.base party = some base)
    (ended : ∀ i, party = .worker i → disk.base.worker i = .downloading →
      (disk.transfer i = .before ∧ (deliveries i).body? = none) ∨
        ∃ written, disk.transfer i = .ended written) :
    Tracks (deliveries i) (base.worker i) (disk.transfer i) := by
  cases stage : disk.transfer i with
  | before =>
      rw [stage] at tracks
      rcases tracks with fresh | missing
      · rcases fresh_step sound stepped i with ⟨itself, phase⟩ | stale | same | ⟨_, kept⟩
        · rcases ended i itself phase with ⟨_, missing⟩ | ⟨written, other⟩
          · exact Or.inr missing
          · rw [stage] at other
            cases other
        · rw [stale] at fresh
          cases fresh
        · exact Or.inl (same ▸ fresh)
        · exact Or.inl kept
      · exact Or.inr missing
  | copying written writes left =>
      rw [stage] at tracks
      obtain ⟨phase, others⟩ := tracks
      rcases fresh_step sound stepped i with ⟨itself, _⟩ | stale | same | ⟨elsewhere, _⟩
      · rcases ended i itself phase with ⟨other, _⟩ | ⟨_, other⟩
        · rw [stage] at other
          cases other
        · rw [stage] at other
          cases other
      · rw [phase] at stale
        cases stale
      · exact ⟨same.trans phase, others⟩
      · exact absurd phase elsewhere
  | ended written =>
      rw [stage] at tracks
      exact tracks

/-! ## What the files hold -/

/-- The files are blends of what the workers have written. -/
def Blended (files : Files) (prior : FileSystem) (now : FileSystem)
    (transfer : Fin files.size → Transfer) : Prop :=
  ∀ path, Blends (fun i => files.targetPath i = path) (fun i => (transfer i).written)
    (contentOf prior path) (contentOf now path)

theorem written_update (transfer : Fin files.size → Transfer) (i : Fin files.size)
    (after : Transfer) :
    (fun j => (Function.update transfer i after j).written) =
      Function.update (fun j => (transfer j).written) i after.written := by
  funext j
  by_cases here : j = i
  · subst here
    simp
  · simp [here]

/-- A worker goes on without a write. -/
theorem Blended.idle {after : Transfer} (blended : Blended files prior disk.files disk.transfer)
    (same : after.written = (disk.transfer i).written) :
    Blended files prior disk.files (Function.update disk.transfer i after) := by
  intro path
  rw [written_update, same, Function.update_eq_self]
  exact blended path

theorem contentOf_self (now : FileSystem) (path : String) (content : Option Bytes) :
    contentOf (Function.update now path content) path = content.getD [] := by
  rw [contentOf, Function.update_self]

theorem contentOf_other (now : FileSystem) {target path : String} (content : Option Bytes)
    (other : path ≠ target) : contentOf (Function.update now target content) path =
      contentOf now path := by
  rw [contentOf, Function.update_of_ne other, contentOf]

/-- Opening a file for writing leaves what it holds. -/
theorem contentOf_opened (now : FileSystem) (target path : String) :
    contentOf (Function.update now target (File.opened targetFlags (now target))) path =
      contentOf now path := by
  by_cases here : path = target
  · subst here
    rw [contentOf_self, contentOf]
    cases now path <;> rfl
  · exact contentOf_other now _ here

theorem Blended.write {written data : Bytes} {after : Transfer}
    (blended : Blended files prior disk.files disk.transfer)
    (before : (disk.transfer i).written = written) (same : after.written = written ++ data) :
    Blended files prior (disk.write files i written data after).files
      (disk.write files i written data after).transfer := by
  intro path
  simp only [Disk.write]
  rw [written_update, same]
  by_cases here : files.targetPath i = path
  · have goes := (blended path).write here data
    simp only [before] at goes
    subst here
    rw [contentOf_self]
    exact goes
  · rw [contentOf_other _ _ (Ne.symm here)]
    exact (blended path).elsewhere here _

/-- What holds of the workers and of the files in every state. -/
structure Disk.Kept (files : Files) (deliveries : Fin files.size → Delivery ε)
    (text : Error (Cause ε) → String) (prior : FileSystem) (disk : Disk ε files.size) : Prop where
  /-- The invariant of the workers holds. -/
  sound : Sound files (exchanges files deliveries) text disk.base
  /-- Every transfer is where its worker is. -/
  tracks : ∀ i, Tracks (deliveries i) (disk.base.worker i) (disk.transfer i)
  /-- Every file is a blend of what was written and what was there. -/
  blended : Blended files prior disk.files disk.transfer

theorem Disk.kept_start : (start files prior).Kept files deliveries text prior where
  sound := start_sound
  tracks _ := Or.inl rfl
  blended _ := Blends.start _

/-- A worker in `DownloadFile` goes on by itself. -/
theorem Disk.Kept.tracks_update {after : Transfer} (kept : disk.Kept files deliveries text prior)
    (tracks : Tracks (deliveries i) (disk.base.worker i) after) (j : Fin files.size) :
    Tracks (deliveries j) (disk.base.worker j) (Function.update disk.transfer i after j) := by
  by_cases here : j = i
  · subst here
    rwa [Function.update_self]
  · rw [Function.update_of_ne here]
    exact kept.tracks j

theorem Disk.Kept.step (kept : disk.Kept files deliveries text prior)
    (stepped : disk.step files deliveries text party = some next) :
    next.Kept files deliveries text prior := by
  have effect := effect_of_step stepped
  have sound := effect.sound kept.sound
  cases effect with
  | base moved ended =>
      exact ⟨sound, fun i => (kept.tracks i).base kept.sound moved ended, kept.blended⟩
  | @opens i body phase before found =>
      refine ⟨sound, kept.tracks_update ⟨phase, body, found, ?_, fun _ => rfl⟩, fun path => ?_⟩
      · rw [chunksOf, File.Reads.content]
        simp
      · simp only [contentOf_opened]
        exact kept.blended.idle (by rw [before]; rfl) path
  | @writes i written chunk writes left phase before something whole =>
      have tracks := kept.tracks i
      rw [before] at tracks
      obtain ⟨_, body, found, content, outcome⟩ := tracks
      refine ⟨sound, kept.tracks_update ⟨phase, body, found, ?_, fun file => ?_⟩,
        kept.blended.write (by rw [before]; rfl) rfl⟩
      · rw [List.append_assoc]
        exact content
      · rw [← outcome file, File.copyChunks, if_pos something, whole]
        exact File.copyChunks_err _ _ _ _ _
  | @fails i written chunk writes count err left phase before something fault =>
      have tracks := kept.tracks i
      rw [before] at tracks
      obtain ⟨_, body, found, content, outcome⟩ := tracks
      refine ⟨sound, kept.tracks_update ⟨body, found, fun file whole => ?_⟩,
        kept.blended.write (by rw [before]; rfl) rfl⟩
      rw [← outcome file, File.copyChunks, if_pos something, fault] at whole
      cases whole
  | @skips i written writes left phase before =>
      have tracks := kept.tracks i
      rw [before] at tracks
      obtain ⟨_, body, found, content, outcome⟩ := tracks
      exact ⟨sound, kept.tracks_update ⟨phase, body, found, content, outcome⟩,
        kept.blended.idle (by rw [before]; rfl)⟩
  | @ends i written writes phase before =>
      have tracks := kept.tracks i
      rw [before] at tracks
      obtain ⟨_, body, found, content, _⟩ := tracks
      refine ⟨sound, kept.tracks_update ⟨body, found, fun _ _ => ?_⟩,
        kept.blended.idle (by rw [before]; rfl)⟩
      simpa using content

/-! ## When all is done -/

/-- The bytes that the response of a download carries. -/
def Delivery.bytes (delivery : Delivery ε) : Bytes :=
  match delivery.response with
  | .ok (_, body) => body.content
  | .error _ => []

/-- A download without an error has copied the body of its response to the end. -/
theorem body_of_success {delivery : Delivery ε} {path : String}
    (succeeded : downloadFile (delivery.exchange prior path) = none) :
    ∃ body, delivery.body? = some body ∧ delivery.bytes = body.content ∧
      (File.copyChunks delivery.write (chunksOf body) 0 (openTarget prior path)).2 = none := by
  obtain ⟨request, response, openFile, write⟩ := delivery
  cases request with
  | some err => cases succeeded
  | none =>
      cases response with
      | error err => cases succeeded
      | ok response =>
          obtain ⟨status, body⟩ := response
          simp only [downloadFile, Delivery.exchange, Except.map] at succeeded
          split_ifs at succeeded with bad
          · cases succeeded
          cases openFile with
          | some err => cases succeeded
          | none =>
              refine ⟨body, by simp only [Delivery.body?, if_neg bad], rfl, ?_⟩
              have copied : (File.copy write (openTarget prior path) body).2 = none := by
                simpa [wrap] using succeeded
              rw [File.copy] at copied
              split at copied
              · cases copied
              · rename_i outcome
                exact congrArg Prod.snd outcome

/-- When all downloads have succeeded, every worker has written the bytes of its response. -/
theorem Disk.Kept.written_eq (kept : disk.Kept files deliveries text prior)
    (returned : disk.base.main = .returned none) (i : Fin files.size) :
    (disk.transfer i).written = (deliveries i).bytes := by
  have inPlace := kept.sound.inPlace
  simp only [InPlace, returned] at inPlace
  obtain ⟨empty, same, done⟩ := inPlace
  have perm := kept.sound.errs_perm done empty
  rw [result_eq_none_iff.mp same.symm] at perm
  have succeeded := failures_eq_nil_iff.mp perm.nil_eq.symm i
  obtain ⟨body, found, bytes, outcome⟩ := body_of_success succeeded
  have tracks := kept.tracks i
  rw [done i] at tracks
  rw [bytes]
  cases stage : disk.transfer i with
  | before =>
      rw [stage] at tracks
      rcases tracks with fresh | missing
      · cases fresh
      · rw [found] at missing
        cases missing
  | copying written writes left =>
      rw [stage] at tracks
      cases tracks.1
  | ended written =>
      rw [stage] at tracks
      obtain ⟨body', found', whole⟩ := tracks
      rw [found] at found'
      cases found'
      exact whole _ outcome

theorem Disk.Kept.blends (kept : disk.Kept files deliveries text prior)
    (returned : disk.base.main = .returned none) (path : String) :
    Blends (fun i => files.targetPath i = path) (fun i => (deliveries i).bytes)
      (contentOf prior path) (contentOf disk.files path) := by
  have blended := kept.blended path
  simp only [kept.written_eq returned] at blended
  exact blended

variable {schedule : List (Party files.size)}

theorem Disk.kept_of_run
    (ran : runFrom (step files deliveries text) (start files prior) schedule = some disk) :
    disk.Kept files deliveries text prior :=
  runFrom_invariant Kept.step kept_start ran

/-- Whatever the order of the workers' steps, when `DownloadFiles` has succeeded every byte of a
file is the byte that some response for that file has in its place, or it lies behind all of them
and is as it was before. -/
theorem downloaded_blends
    (ran : runFrom (Disk.step files deliveries text) (Disk.start files prior) schedule = some disk)
    (returned : disk.base.main = .returned none) (path : String) :
    Blends (fun i => files.targetPath i = path) (fun i => (deliveries i).bytes)
      (contentOf prior path) (contentOf disk.files path) :=
  (Disk.kept_of_run ran).blends returned path

/-- A file that is the target of one URL only has the body of that response in front of what a
longer file had behind it. -/
theorem downloaded_sole
    (ran : runFrom (Disk.step files deliveries text) (Disk.start files prior) schedule = some disk)
    (returned : disk.base.main = .returned none)
    (only : ∀ j, files.targetPath j = files.targetPath i → j = i) :
    contentOf disk.files (files.targetPath i) =
      (deliveries i).bytes ++
        (contentOf prior (files.targetPath i)).drop (deliveries i).bytes.length :=
  ((Disk.kept_of_run ran).blends returned _).sole rfl only

/-- Two URLs for one target. -/
def twoForOne : Files where
  size := 2
  url i := if i.val = 0 then "a" else "b"
  targetPath _ := "out"
  distinct := by decide

/-- Two bodies that come in two chunks each. -/
def twoBodies (i : Fin 2) : Delivery Unit where
  request := none
  response := .ok (200, {
    chunks := if i.val = 0 then [[0x76, 0x77], [0x78]] else [[0x79], [0x7A]]
    last := []
    ending := .eof })
  openFile := none
  write _ := none

/-- The workers take turns. -/
def inTurns : List (Party 2) :=
  List.replicate 3 .main ++ (List.replicate 9 ((List.finRange 2).map .worker)).flatten ++
    List.replicate 3 .main

/-- The file is neither of the two bodies. -/
theorem downloaded_blends_inTurns : ∃ disk : Disk Unit 2,
    runFrom (Disk.step twoForOne twoBodies fun _ => "") (Disk.start twoForOne fun _ => none)
        inTurns = some disk ∧
      contentOf disk.files "out" = [0x79, 0x7A, 0x78] ∧
      Blends (fun i => twoForOne.targetPath i = "out") (fun i => (twoBodies i).bytes) []
        (contentOf disk.files "out") := by
  have ran : runFrom (Disk.step twoForOne twoBodies fun _ => "")
      (Disk.start twoForOne fun _ => none) inTurns = some _ := rfl
  exact ⟨_, ran, rfl, downloaded_blends ran rfl "out"⟩

end CommonGo.HttpUtil
