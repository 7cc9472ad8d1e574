import Kyvera.Library.Respects
import Kyvera.Library.Trace
import Kyvera.Library.TreeSum
import Kyvera.Wallet.Storage

/-!
# Wallet directories

A save goes through a temporary file, which is renamed when it is complete.  So a wallet that was
saved stays readable, whatever happens to later saves: one that is interrupted leaves the file of
the last complete one in its place.  The temporary file has a name of its own, `path.tmp`, and a
wallet that is kept under such a name is lost to a save of its neighbour.
-/

namespace Kyvera

open Effect Std Trace

/-- A call on the files. -/
inductive FileCall where
  | save (writer : WalletWriter) (nonce : Nonce) (wallet : KyveraWallet) (path password : String)
  | delete (path : String)

/-- How a call ends: undisturbed, with a refused write, or with the end of the process in the middle
of the temporary file, which then holds anything. -/
inductive Fate where
  | undisturbed
  | refused (writes : ℕ)
  | torn (contents : List UInt8)

namespace FileCall

/-- The path that a call is about. -/
def path : FileCall → String
  | .save _ _ _ path _ => path
  | .delete path => path

/-- The call goes through a temporary file at the path. -/
def GoesThrough (path : String) : FileCall → Prop
  | .save _ _ _ target _ => target ++ ".tmp" = path
  | .delete _ => False

section

variable (H : Sha3) (A : Aes256Gcm) (J : WalletJson)

def program : FileCall → FileM Unit
  | .save writer nonce wallet path password => writer.save H A J nonce wallet path password
  | .delete path => deleteWallet path

/-- The outcome of a call, and the files after it; a process that ends has no outcome but a
panic. -/
def attempt (call : FileCall) (files : FileSystem) : Fate → Outcome StorageError Unit × FileSystem
  | .undisturbed => (call.program H A J).run files
  | .refused n => (call.program H A J).runRefusing n files
  | .torn contents =>
      match call with
      | .save _ _ _ path _ => (.panic, files.insert (path ++ ".tmp") contents)
      | .delete _ => (.panic, files)

end

end FileCall

/-- A call with its fate. -/
def Ends (H : Sha3) (A : Aes256Gcm) (J : WalletJson) (files : FileSystem)
    (call : FileCall × Fate) (files' : FileSystem) : Prop :=
  files' = (call.1.attempt H A J files call.2).2

/-- The call came to its end without an error. -/
def Completed (H : Sha3) (A : Aes256Gcm) (J : WalletJson)
    (t : Step FileSystem (FileCall × Fate)) : Prop :=
  (t.call.1.attempt H A J t.pre t.call.2).1 = .ok ()

/-- The step takes away what is at the path: a complete save or deletion there, or any save that
uses the path for its temporary file. -/
def Disturbs (H : Sha3) (A : Aes256Gcm) (J : WalletJson) (path : String)
    (t : Step FileSystem (FileCall × Fate)) : Prop :=
  t.call.1.path = path ∧ Completed H A J t ∨ t.call.1.GoesThrough path

section Save

variable {H : Sha3} {A : Aes256Gcm} {J : WalletJson} {key : Key} {nonce : Nonce}
  {wallet : KyveraWallet} {path : String} {files : FileSystem}

theorem tmp_ne (path : String) : path ++ ".tmp" ≠ path :=
  fun h => absurd (String.append_eq_left_iff.1 h) (by decide)

/-- A save stops before it writes, or it writes the temporary file and renames it. -/
theorem saveUnder_cases (A : Aes256Gcm) (J : WalletJson) (key : Key) (nonce : Nonce)
    (wallet : KyveraWallet) (path : String) :
    (∃ e, saveUnder A J key nonce wallet path = .err e) ∨
      ∃ contents, saveUnder A J key nonce wallet path =
        writeFile (path ++ ".tmp") contents >>= fun _ => renameFile (path ++ ".tmp") path := by
  unfold saveUnder
  cases J.toString wallet with
  | error e => exact .inl ⟨_, rfl⟩
  | ok json =>
      dsimp only
      rcases A.encrypt key nonce (Bytes.utf8 json) with _ | ciphertext
      · exact .inl ⟨_, rfl⟩
      · exact .inr ⟨_, rfl⟩

theorem runRefusing_renameFile {source target : String} {contents : List UInt8}
    (h : files[source]? = some contents) :
    (renameFile source target).runRefusing 0 files = (.err (.ioError "rename failed"), files) ∧
      ∀ n, (renameFile source target).runRefusing (n + 1) files =
        (renameFile source target).run files := by
  refine ⟨?_, fun n => ?_⟩
  · rw [renameFile, Prog.runRefusing_get_bind, h]
    rfl
  · rw [run_renameFile h, renameFile, Prog.runRefusing_get_bind, h]
    rfl

/-- The writes of a save that gets that far: all of them, none, or the temporary file. -/
theorem runRefusing_write_rename (path : String) (contents : List UInt8) (files : FileSystem)
    (n : ℕ) :
    let save : FileM Unit :=
      writeFile (path ++ ".tmp") contents >>= fun _ => renameFile (path ++ ".tmp") path
    save.runRefusing n files = save.run files ∨
      (save.runRefusing n files).1 ≠ .ok () ∧
        ((save.runRefusing n files).2 = files ∨
          (save.runRefusing n files).2 = files.insert (path ++ ".tmp") contents) := by
  intro save
  have hwritten : (files.insert (path ++ ".tmp") contents)[path ++ ".tmp"]? = some contents :=
    ExtTreeMap.getElem?_insert_self
  match n with
  | 0 => exact .inr ⟨nofun, .inl rfl⟩
  | 1 =>
      have hrefused : save.runRefusing 1 files = _ := (runRefusing_renameFile hwritten).1
      rw [hrefused]
      exact .inr ⟨nofun, .inr rfl⟩
  | n + 2 => exact .inl ((runRefusing_renameFile hwritten).2 n)

theorem run_write_rename (path : String) (contents : List UInt8) (files : FileSystem) :
    (writeFile (path ++ ".tmp") contents >>= fun _ => renameFile (path ++ ".tmp") path).run files =
      (.ok (), ((files.insert (path ++ ".tmp") contents).erase (path ++ ".tmp")).insert path
        contents) :=
  run_renameFile ExtTreeMap.getElem?_insert_self

/-- A save that is refused a write is the undisturbed one, or it fails and leaves no more than a
temporary file. -/
theorem runRefusing_saveUnder (A : Aes256Gcm) (J : WalletJson) (key : Key) (nonce : Nonce)
    (wallet : KyveraWallet) (path : String) (files : FileSystem) (n : ℕ) :
    let save := saveUnder A J key nonce wallet path
    save.runRefusing n files = save.run files ∨
      (save.runRefusing n files).1 ≠ .ok () ∧
        ∀ other, other ≠ path ++ ".tmp" → (save.runRefusing n files).2[other]? = files[other]? := by
  intro save
  rcases saveUnder_cases A J key nonce wallet path with ⟨e, herr⟩ | ⟨contents, hwrites⟩
  · have hsave : save = .err e := herr
    rw [hsave]
    exact .inl rfl
  · have hsave : save = _ := hwrites
    rw [hsave]
    refine (runRefusing_write_rename path contents files n).imp_right fun ⟨hfailed, hleft⟩ => ?_
    refine ⟨hfailed, fun other hother => ?_⟩
    rcases hleft with h | h
    · rw [h]
    · rw [h, TreeSum.getElem?_insert_of_ne _ _ (Ne.symm hother)]

/-- An undisturbed save touches its path and its temporary path, and its path only if it
succeeds. -/
theorem frame_saveUnder {other : String} (htmp : other ≠ path ++ ".tmp") :
    let r := (saveUnder A J key nonce wallet path).run files
    (r.1 = .ok () → other ≠ path) → r.2[other]? = files[other]? := by
  intro r
  rcases saveUnder_cases A J key nonce wallet path with ⟨e, herr⟩ | ⟨contents, hwrites⟩
  · have hr : r = (.err e, files) := congrArg (·.run files) herr
    rw [hr]
    exact fun _ => rfl
  · have hr : r = _ := (congrArg (·.run files) hwrites).trans (run_write_rename path contents files)
    rw [hr]
    intro hpath
    rw [TreeSum.getElem?_insert_of_ne _ _ (Ne.symm (hpath rfl)),
      TreeSum.getElem?_erase_of_ne _ (Ne.symm htmp),
      TreeSum.getElem?_insert_of_ne _ _ (Ne.symm htmp)]

/-- A save that completes is the undisturbed one; it touches its path and its temporary path, and
its path only if it completes. -/
theorem attempt_save {writer : WalletWriter} {password : String} (fate : Fate) :
    let r := (FileCall.save writer nonce wallet path password).attempt H A J files fate
    (r.1 = .ok () → (writer.save H A J nonce wallet path password).run files = r) ∧
      ∀ other, other ≠ path ++ ".tmp" → (r.1 = .ok () → other ≠ path) →
        r.2[other]? = files[other]? := by
  cases fate with
  | undisturbed =>
      refine ⟨fun _ => rfl, fun other htmp hpath => ?_⟩
      simp only [FileCall.attempt, FileCall.program, WalletWriter.save_eq] at hpath ⊢
      exact frame_saveUnder htmp hpath
  | refused n =>
      have hcall : (FileCall.save writer nonce wallet path password).program H A J =
          saveUnder A J (H.digest (writer.keyInput password wallet.address)) nonce wallet path :=
        WalletWriter.save_eq writer H A J nonce wallet path password
      simp only [FileCall.attempt, hcall, WalletWriter.save_eq]
      rcases runRefusing_saveUnder A J (H.digest (writer.keyInput password wallet.address)) nonce
        wallet path files n with hsame | ⟨hfailed, hframe⟩
      · rw [hsame]
        exact ⟨fun _ => rfl, fun other htmp hpath => frame_saveUnder htmp hpath⟩
      · exact ⟨fun hok => absurd hok hfailed, fun other htmp _ => hframe other htmp⟩
  | torn contents =>
      exact ⟨nofun, fun other htmp _ => TreeSum.getElem?_insert_of_ne _ _ (Ne.symm htmp)⟩

theorem attempt_delete (fate : Fate) :
    let r := (FileCall.delete path).attempt H A J files fate
    r.1 ≠ .ok () ∧ r.2 = files ∨ r = (.ok (), files.erase path) := by
  cases fate with
  | undisturbed =>
      simp only [FileCall.attempt, FileCall.program, deleteWallet, Prog.run_get_bind]
      cases files[path]? with
      | none => exact .inl ⟨nofun, rfl⟩
      | some contents => exact .inr rfl
  | refused n =>
      simp only [FileCall.attempt, FileCall.program, deleteWallet, Prog.runRefusing_get_bind]
      cases files[path]? with
      | none => exact .inl ⟨by cases n <;> exact nofun, by cases n <;> rfl⟩
      | some contents =>
          cases n with
          | zero => exact .inl ⟨nofun, rfl⟩
          | succ n => exact .inr rfl
  | torn contents => exact .inl ⟨nofun, rfl⟩

end Save

section Runs

variable {H : Sha3} {A : Aes256Gcm} {J : WalletJson} {nonce : Nonce} {wallet : KyveraWallet}
  {path password : String} {fate : Fate} {files files' : FileSystem}
  {run : List (Step FileSystem (FileCall × Fate))}

theorem getElem?_of_undisturbed {t : Step FileSystem (FileCall × Fate)}
    (ht : Ends H A J t.pre t.call t.post) (hleft : ¬ Disturbs H A J path t) :
    t.post[path]? = t.pre[path]? := by
  obtain ⟨pre, ⟨call, fate⟩, post⟩ := t
  obtain rfl : post = (call.attempt H A J pre fate).2 := ht
  obtain ⟨hother, htmp⟩ := not_or.1 hleft
  cases call with
  | save writer nonce wallet target password =>
      refine (attempt_save fate).2 path (fun h => htmp h.symm) fun hok hpath => ?_
      exact hother ⟨hpath.symm, hok⟩
  | delete target =>
      rcases @attempt_delete H A J target pre fate with
        ⟨-, hsame⟩ | hgone
      · exact congrArg (·[path]?) hsame
      · have hne : target ≠ path := fun h => hother ⟨h, congrArg Prod.fst hgone⟩
        exact (congrArg (·.2[path]?) hgone).trans (TreeSum.getElem?_erase_of_ne _ hne)

theorem getElem?_final (h : IsRun (Ends H A J) files run)
    (hleft : ∀ t ∈ run, ¬ Disturbs H A J path t) : (final files run)[path]? = files[path]? := by
  induction run generalizing files with
  | nil => rfl
  | cons t rest ih =>
      obtain ⟨rfl, ht, hrest⟩ := h
      obtain ⟨hfirst, hothers⟩ := List.forall_mem_cons.1 hleft
      exact (ih hrest hothers).trans (getElem?_of_undisturbed ht hfirst)

theorem respects_loadWallet (H : Sha3) (A : Aes256Gcm) (J : WalletJson) (path password : String) :
    (loadWallet H A J path password).Respects
      fun files files' : FileSystem => files[path]? = files'[path]? := by
  have hread : (readFile path).Respects
      fun files files' : FileSystem => files[path]? = files'[path]? := by
    intro files files' h
    unfold readFile
    rw [Prog.run_get_bind, Prog.run_get_bind, h]
    cases hfile : files'[path]? with
    | none => exact ⟨rfl, h⟩
    | some contents => exact ⟨rfl, h⟩
  apply hread.bind
  intro contents
  dsimp only
  split_ifs
  · exact Prog.respects_err _
  · exact Prog.respects_err _
  · apply (Prog.respects_okOr _ _).bind
    intro plaintext
    apply (Prog.respects_okOr _ _).bind
    intro json
    cases J.fromStr json with
    | error e => exact Prog.respects_err _
    | ok wallet => exact Prog.Respects.ite (Prog.respects_done _) (Prog.respects_err _)

/-- The password that a file opens with. -/
def WalletWriter.opensWith (writer : WalletWriter) (password walletAddress : String) : String :=
  match writer with
  | .saveWallet => password ++ walletAddress
  | .saveWalletV2 => password

theorem WalletWriter.keyInput_eq (writer : WalletWriter) (password walletAddress : String) :
    writer.keyInput password walletAddress =
      storageKeyInput (writer.opensWith password walletAddress) := by
  cases writer <;> rfl

/-- A wallet whose save completed is read back after any further calls, interrupted ones included,
that do not save or delete it again and do not use its path for their temporary file. -/
theorem loadWallet_of_history {writer : WalletWriter}
    {before after : List (Step FileSystem (FileCall × Fate))} {t : Step FileSystem (FileCall × Fate)}
    (hA : A.Authentic) (hJ : J.RoundTrips) (h : IsRun (Ends H A J) files (before ++ t :: after))
    (hcall : t.call = (.save writer nonce wallet path password, fate))
    (hcompleted : Completed H A J t) (hw : wallet.verifyAddressIntegrity H = true)
    (hleft : ∀ t' ∈ after, ¬ Disturbs H A J path t') :
    let now := final files (before ++ t :: after)
    let opening := writer.opensWith password wallet.address
    ((loadWallet H A J path opening).run now).1 = .ok wallet ∧
      ∀ other, other ≠ opening →
        H.CollisionFree [storageKeyInput opening, storageKeyInput other] →
          ((loadWallet H A J path other).run now).1 = .err .decryptionFailed := by
  intro now opening
  obtain ⟨-, -, ht, hafter⟩ := isRun_append.1 h
  obtain ⟨pre, call, post⟩ := t
  obtain rfl : call = (.save writer nonce wallet path password, fate) := hcall
  have hpost : post = ((FileCall.save writer nonce wallet path password).attempt H A J pre fate).2 :=
    ht
  have hrun : (saveUnder A J (H.digest (storageKeyInput opening)) nonce wallet path).run pre =
      (.ok (), post) := by
    rw [← WalletWriter.keyInput_eq, ← WalletWriter.save_eq, (attempt_save fate).1 hcompleted, hpost]
    exact Prod.ext hcompleted rfl
  have hfile : now[path]? = post[path]? := by
    show (final files _)[path]? = _
    rw [final_append]
    exact getElem?_final hafter hleft
  have hsame : ∀ other, ((loadWallet H A J path other).run now).1 =
      ((loadWallet H A J path other).run post).1 :=
    fun other => (respects_loadWallet H A J path other now post hfile).1
  have hload := run_loadWallet_of_saveUnder hA hJ hw hrun
  refine ⟨?_, fun other hne hH => ?_⟩
  · rw [hsame, hload]
    exact congrArg Prod.fst (if_pos rfl)
  · rw [hsame, hload, if_neg]
    intro hkey
    exact hne (storageKeyInput_injective (hH.digest_inj (by simp) (by simp) hkey))

end Runs

/-- A wallet that was saved, and two later saves to its path that are interrupted: one in the middle
of the temporary file, one before the rename. -/
theorem loadWallet_of_history_interrupted :
    let save := FileCall.save .saveWalletV2 zeroNonce keySevenWallet "main.wallet"
    let run := trace (fun files (call : FileCall × Fate) =>
        (call.1.attempt Sha3.checksum .prefixing .keySeven files call.2).2) (∅ : FileSystem)
      [(save "horse", .undisturbed), (save "battery", .torn [1, 2, 3]), (save "battery", .refused 1)]
    ((loadWallet Sha3.checksum .prefixing .keySeven "main.wallet" "horse").run (final ∅ run)).1 =
      .ok keySevenWallet := by
  intro save run
  have hrun : IsRun (Ends Sha3.checksum .prefixing .keySeven) ∅ ([] ++ run) :=
    isRun_trace fun _ _ => rfl
  have hleft : ∀ t ∈ run.tail,
      ¬ Disturbs Sha3.checksum .prefixing .keySeven "main.wallet" t := by
    refine List.forall_mem_cons.2 ⟨?_, List.forall_mem_singleton.2 ?_⟩
    · rintro (⟨-, hcompleted⟩ | htmp)
      · cases hcompleted
      · exact absurd (show "main.wallet" ++ ".tmp" = "main.wallet" from htmp) (tmp_ne _)
    · rintro (⟨-, hcompleted⟩ | htmp)
      · exact absurd hcompleted (by unfold Completed; decide +kernel)
      · exact absurd (show "main.wallet" ++ ".tmp" = "main.wallet" from htmp) (tmp_ne _)
  exact (loadWallet_of_history Aes256Gcm.authentic_prefixing
    (WalletJson.roundTrips_single _ _) hrun rfl (by unfold Completed; decide +kernel)
    (by decide +kernel) hleft).1

end Kyvera
