import Jepsen.Control.Wget

/-!
# What is in the cache

A run of `cachedWget` calls on one node.  A call looks whether the file is there, and not what is in
it: the file of a download that failed half-way stays, and the next call hands it out.
-/

namespace Jepsen

open Library

namespace SSHRemote

variable {β : Type} (node : Node β) (download : Download β)

theorem execute_stat (file : Bytes) (o : FileSystem β) :
    (execute node download (.stat file) o).1.1 =
      (Tree.reach (resolve node.login file) o).isSome := by
  simp only [execute, Node.run]
  cases (Tree.reach (resolve node.login file) o).isSome <;> rfl

theorem sudoExecute_rm {file : Bytes} (h : resolve node.login file ≠ []) (o : FileSystem β) :
    sudoExecute node download (.rm file) o =
      Tree.alter (fun _ ↦ none) (resolve node.login file) o := by
  simp only [sudoExecute, execute, Node.run, if_neg h]
  rfl

theorem sudoExecute_mkdir (dir : Bytes) (o : FileSystem β) :
    sudoExecute node download (.mkdir dir) o = Tree.mkdir (resolve node.login dir) o := rfl

-- What a download that ends like this puts into the file.
theorem sudoExecute_wget (file url : Bytes) (o : FileSystem β) :
    (sudoExecute node download (.wget file url) o = o ∧ ∀ left, download = .failed (some left) →
      Node.store (resolve node.login file) left o = none) ∨
    ∃ content, (download = .succeeded ∧ content = node.full url ∨
        download = .failed (some content)) ∧
      Node.store (resolve node.login file) content o =
        some (sudoExecute node download (.wget file url) o) := by
  -- `wget -O` opens its file first: where it cannot, the tree stays as it is.
  cases download with
  | succeeded =>
    cases h : Node.store (resolve node.login file) (node.full url) o with
    | none => exact .inl ⟨by simp [sudoExecute, execute, Node.run, h, Node.refused], by simp⟩
    | some o' =>
      exact .inr ⟨_, .inl ⟨rfl, rfl⟩, by simp [sudoExecute, execute, Node.run, h, Node.done]⟩
  | failed left =>
    cases left with
    | none => exact .inl ⟨rfl, by simp⟩
    | some left =>
      cases h : Node.store (resolve node.login file) left o with
      | none =>
        refine .inl ⟨by simp [sudoExecute, execute, Node.run, h, Node.refused], ?_⟩
        intro left' hleft'
        rw [← Option.some.inj (Download.failed.inj hleft'), h]
      | some o' =>
        exact .inr ⟨_, .inr rfl, by simp [sudoExecute, execute, Node.run, h, Node.refused]⟩

end SSHRemote

namespace ControlHelper

variable {β : Type} {build : Build} {node : Node β}

variable (node) in
theorem fileExists_eq (download : Download β) (file : Bytes) (o : FileSystem β) :
    fileExists node download file o = (Tree.reach (resolve node.login file) o).isSome :=
  SSHRemote.execute_stat node download file o

def cacheDir : Path := [ascii "tmp", ascii "jepsen", ascii "wget-cache"]

theorem resolve_kWgetCacheDir (cwd : Path) : resolve cwd kWgetCacheDir = cacheDir := by
  have h : (kWgetCacheDir.splitOn slash).foldl walk [] = cacheDir := by decide
  exact h

theorem resolve_cached (cwd : Path) {name : Bytes} (h : ProperName name) :
    resolve cwd (kWgetCacheDir ++ slash :: name) = cacheDir ++ [name] := by
  rw [resolve_name cwd (by decide) h, resolve_kWgetCacheDir]

-- Two entries of a directory are apart.
theorem not_prefix_of_ne {p : Path} {name name' : Bytes} (h : name ≠ name') :
    ¬p ++ [name] <+: p ++ [name'] := by
  intro hp
  have heq := hp.eq_of_length (by simp)
  exact h (List.cons.inj (List.append_cancel_left heq)).1

/-! ## One call -/

structure WgetCall (β : Type) where
  url : Bytes
  force : Bool
  download : Download β

/-- The call makes a download. -/
def WgetCall.Downloads (node : Node β) (call : WgetCall β) (file : Bytes) (o : FileSystem β) :
    Prop :=
  fileExists node call.download file (cleared node call.download file call.force o) = false

instance (call : WgetCall β) (file : Bytes) (o : FileSystem β) :
    Decidable (call.Downloads node file o) := inferInstanceAs (Decidable (_ = _))

variable {call : WgetCall β} {name file : Bytes} {o o' : FileSystem β}

variable (node call o) in
theorem reach_cleared (hname : ProperName name) (name' : Bytes) :
    Tree.reach (cacheDir ++ [name'])
        (cleared node call.download (kWgetCacheDir ++ slash :: name) call.force o) =
      if call.force = true ∧ name' = name then none else Tree.reach (cacheDir ++ [name']) o := by
  unfold cleared
  cases call.force with
  | false => simp
  | true =>
    rw [if_pos rfl, SSHRemote.sudoExecute_rm _ _ (by rw [resolve_cached _ hname]; simp),
      resolve_cached _ hname]
    by_cases h : name' = name
    · rw [if_pos ⟨rfl, h⟩, h, Tree.reach_remove]
    · rw [if_neg (by simp [h]), Tree.reach_alter_of_diverge (not_prefix_of_ne (Ne.symm h))
        (not_prefix_of_ne h)]

theorem reach_store {content : β} (h : Node.store (cacheDir ++ [name]) content o = some o')
    (name' : Bytes) :
    Tree.reach (cacheDir ++ [name']) o' =
      if name' = name then some (.file content) else Tree.reach (cacheDir ++ [name']) o := by
  unfold Node.store at h
  split at h
  · next hw =>
    rw [List.dropLast_concat] at hw
    rw [← Option.some.inj h]
    by_cases hname : name' = name
    · rw [if_pos hname, hname, Tree.reach_alter hw.1]
    · rw [if_neg hname, Tree.reach_alter_of_diverge (not_prefix_of_ne (Ne.symm hname))
        (not_prefix_of_ne hname)]
  · exact absurd h (by simp)

/-- What a call does to the entries of the cache directory.  A call that makes no download leaves
them and finds its own; one that does leaves the others, and has at its own nothing, or what the
download brought. -/
theorem cachedWget_cases (hname : ProperName name)
    (hfile : destFile build call.url = .ok (kWgetCacheDir ++ slash :: name))
    (h : cachedWget build node call.download call.url call.force o = .ok (file, o')) :
    file = kWgetCacheDir ++ slash :: name ∧
      (∀ name' ≠ name, Tree.reach (cacheDir ++ [name']) o' = Tree.reach (cacheDir ++ [name']) o) ∧
      if call.Downloads node file o then
        Tree.reach (cacheDir ++ [name]) o' = none ∨
          ∃ content, Tree.reach (cacheDir ++ [name]) o' = some (.file content) ∧
            (call.download = .succeeded ∧ content = node.full call.url ∨
              call.download = .failed (some content))
      else
        Tree.reach (cacheDir ++ [name]) o' = Tree.reach (cacheDir ++ [name]) o ∧
          Tree.reach (cacheDir ++ [name]) o ≠ none := by
  obtain ⟨o₁, ho₁⟩ : ∃ o₁, o₁ =
    cleared node call.download (kWgetCacheDir ++ slash :: name) call.force o := ⟨_, rfl⟩
  have hcleared := reach_cleared node call o hname
  have hresolve := resolve_cached node.login hname
  have hexists := fileExists_eq node call.download (kWgetCacheDir ++ slash :: name) o₁
  rw [hresolve] at hexists
  rw [← ho₁] at hcleared
  have hothers : ∀ name' ≠ name,
      Tree.reach (cacheDir ++ [name']) o₁ = Tree.reach (cacheDir ++ [name']) o :=
    fun name' hne ↦ (hcleared name').trans (if_neg (by simp [hne]))
  rw [cachedWget, hfile] at h
  simp only [bind, Except.bind, ← ho₁] at h
  cases hex : fileExists node call.download (kWgetCacheDir ++ slash :: name) o₁ with
  | false =>
    have habsent : Tree.reach (cacheDir ++ [name]) o₁ = none := by
      rw [hex] at hexists
      exact Option.isSome_eq_false_iff.mp hexists.symm |> Option.isNone_iff_eq_none.mp
    -- The cache directory is made around the entries it has.
    have hmkdir : ∀ name', Tree.reach (cacheDir ++ [name']) (Tree.mkdir cacheDir o₁) =
        Tree.reach (cacheDir ++ [name']) o₁ := fun name' ↦ Tree.reach_mkdir_below cacheDir name' [] o₁
    simp only [hex, Bool.not_false, if_true, SSHRemote.sudoExecute_mkdir,
      resolve_kWgetCacheDir] at h
    obtain ⟨rfl, rfl⟩ := Prod.mk.inj (Except.ok.inj h)
    have hwget := SSHRemote.sudoExecute_wget node call.download (kWgetCacheDir ++ slash :: name)
      call.url (Tree.mkdir cacheDir o₁)
    rw [hresolve] at hwget
    rw [if_pos (by rw [WgetCall.Downloads, ← ho₁]; exact hex)]
    rcases hwget with ⟨hsame, -⟩ | ⟨content, hcontent, hstore⟩
    · rw [hsame]
      exact ⟨rfl, fun name' hne ↦ (hmkdir name').trans (hothers name' hne),
        .inl ((hmkdir name).trans habsent)⟩
    · refine ⟨rfl, fun name' hne ↦ ?_, .inr ⟨content, ?_, hcontent⟩⟩
      · rw [reach_store hstore, if_neg hne, hmkdir, hothers name' hne]
      · rw [reach_store hstore, if_pos rfl]
  | true =>
    have hpresent : Tree.reach (cacheDir ++ [name]) o₁ ≠ none := by
      rw [hex] at hexists
      exact Option.isSome_iff_ne_none.mp hexists.symm
    simp only [hex, Bool.not_true, Bool.false_eq_true, if_false] at h
    obtain ⟨rfl, rfl⟩ := Prod.mk.inj (Except.ok.inj h)
    rw [if_neg (by rw [WgetCall.Downloads, ← ho₁, hex]; simp)]
    -- The file is there after the clearing, so that it was not cleared.
    have hown := hcleared name
    split at hown
    · exact absurd hown hpresent
    · exact ⟨rfl, hothers, hown, hown ▸ hpresent⟩

/-! ## Runs -/

/-- One call after another on one node. -/
def Fetch (build : Build) (node : Node β) : Lts (FileSystem β) (WgetCall β) := fun o call o' ↦
  Cacheable build call.url ∧
    ∃ file, cachedWget build node call.download call.url call.force o = .ok (file, o')

/-- What the call's download, if it makes one, leaves in the file is all of the URL's content. -/
def LeavesNoPart (build : Build) (node : Node β) (o : FileSystem β) (call : WgetCall β) : Prop :=
  ∀ file left, destFile build call.url = .ok file → call.Downloads node file o →
    call.download = .failed (some left) → left = node.full call.url

/-- Every file in the cache is complete. -/
def Complete (build : Build) (node : Node β) (o : FileSystem β) : Prop :=
  ∀ url name, ProperName name → destFile build url = .ok (kWgetCacheDir ++ slash :: name) →
    Tree.reach (cacheDir ++ [name]) o = none ∨
      Tree.reach (cacheDir ++ [name]) o = some (.file (node.full url))

theorem Complete.step (h : Complete build node o)
    (hstep : (Fetch build node).restrict (LeavesNoPart build node) o call o') :
    Complete build node o' := by
  obtain ⟨hwhole, ⟨file, hfile, name, hname, rfl⟩, file', hcall⟩ := hstep
  obtain ⟨rfl, hothers, hown⟩ := cachedWget_cases hname hfile hcall
  intro url name' hname' hurl
  by_cases hne : name' = name
  · subst hne
    -- Only the URL of the call has this name.
    obtain rfl := destFile_injective hurl hfile
    split at hown
    · next hdown =>
      rcases hown with hnone | ⟨content, hcontent, hdownload⟩
      · exact .inl hnone
      · right
        rcases hdownload with ⟨-, rfl⟩ | hfailed
        · exact hcontent
        · rw [hcontent, hwhole _ content hfile hdown hfailed]
    · rw [hown.1]
      exact h call.url name' hname' hurl
  · rw [hothers name' hne]
    exact h url name' hname' hurl

/-- A call that makes no download hands out a complete file, where every download on the way was
complete or left no file. -/
theorem cachedWget_complete (build : Build) (node : Node β) {o₀ o o' : FileSystem β}
    {calls : List (WgetCall β)} (call : WgetCall β) {file : Bytes}
    (hempty : ∀ name, Tree.reach (cacheDir ++ [name]) o₀ = none)
    (hrun : Run ((Fetch build node).restrict (LeavesNoPart build node)) o₀ calls o)
    (hurl : Cacheable build call.url)
    (hcall : cachedWget build node call.download call.url call.force o = .ok (file, o'))
    (hreuse : ¬call.Downloads node file o) :
    Tree.reach (resolve node.login file) o' = some (.file (node.full call.url)) := by
  have hcomplete : Complete build node o :=
    hrun.preserves (fun _ _ _ hstep h ↦ h.step hstep) fun _ name _ _ ↦ .inl (hempty name)
  obtain ⟨file', hfile, name, hname, rfl⟩ := hurl
  obtain ⟨rfl, -, hown⟩ := cachedWget_cases hname hfile hcall
  rw [if_neg hreuse] at hown
  rw [resolve_cached _ hname, hown.1]
  exact (hcomplete call.url name hname hfile).resolve_left hown.2

/-- The condition leaves no download out: what a failed one has left is handed out by the next call,
whatever it is. -/
theorem cachedWget_reuse {url : Bytes} {t : Tree Bytes β} (hname : ProperName name)
    (hfile : destFile build url = .ok (kWgetCacheDir ++ slash :: name))
    (h : Tree.reach (cacheDir ++ [name]) o = some t) (download : Download β) :
    cachedWget build node download url false o = .ok (kWgetCacheDir ++ slash :: name, o) := by
  have hexists : fileExists node download (kWgetCacheDir ++ slash :: name) o = true := by
    rw [fileExists_eq, resolve_cached _ hname, h]
    rfl
  rw [cachedWget, hfile]
  simp only [bind, Except.bind, cleared, Bool.false_eq_true, if_false, hexists, Bool.not_true]
  rfl

/-- A node whose server answers a URL with the URL itself. -/
def echoNode : Node Bytes := ⟨[ascii "root"], id, fun _ _ ↦ none, fun _ _ ↦ none⟩

def echoCall (download : Download Bytes) : WgetCall Bytes :=
  ⟨ascii "http://n1/db.tar", false, download⟩

def echoFile : Bytes := ascii "/tmp/jepsen/wget-cache/aHR0cDovL24xL2RiLnRhcg=="

def echoCache (content : Bytes) : FileSystem Bytes :=
  some (.dir [(ascii "tmp", .dir [(ascii "jepsen", .dir [(ascii "wget-cache",
    .dir [(ascii "aHR0cDovL24xL2RiLnRhcg==", .file content)])])])])

theorem cacheable_echo : Cacheable ⟨false, true⟩ (ascii "http://n1/db.tar") :=
  (cacheable_iff _ (by decide)).mpr ⟨by decide, (slashFree_iff _).mpr (by decide)⟩

theorem destFile_echo : destFile ⟨false, true⟩ (ascii "http://n1/db.tar") =
    .ok (kWgetCacheDir ++ slash :: ascii "aHR0cDovL24xL2RiLnRhcg==") := by
  decide

theorem cachedWget_echo_first (download : Download Bytes) (content : Bytes)
    (h : download = .succeeded ∧ content = ascii "http://n1/db.tar" ∨
      download = .failed (some content)) :
    cachedWget ⟨false, true⟩ echoNode download (ascii "http://n1/db.tar") false
      (some (.dir [])) = .ok (echoFile, echoCache content) := by
  rw [cachedWget, destFile_echo]
  rcases h with ⟨rfl, rfl⟩ | rfl <;> rfl

theorem cachedWget_echo_next (download : Download Bytes) (content : Bytes) :
    cachedWget ⟨false, true⟩ echoNode download (ascii "http://n1/db.tar") false
      (echoCache content) = .ok (echoFile, echoCache content) := by
  have hname : ProperName (ascii "aHR0cDovL24xL2RiLnRhcg==") :=
    ⟨by decide, by decide, by decide, by decide⟩
  have hthere : Tree.reach (cacheDir ++ [ascii "aHR0cDovL24xL2RiLnRhcg=="]) (echoCache content) =
      some (.file content) := rfl
  exact cachedWget_reuse hname destFile_echo hthere download

theorem fileExists_echo (download : Download Bytes) (content : Bytes) :
    fileExists echoNode download echoFile (echoCache content) = true := rfl

/-- A download, and a call that finds its file. -/
theorem cachedWget_complete_echo :
    Tree.reach (resolve echoNode.login echoFile) (echoCache (ascii "http://n1/db.tar")) =
      some (.file (echoNode.full (ascii "http://n1/db.tar"))) := by
  have hrun : Run ((Fetch ⟨false, true⟩ echoNode).restrict (LeavesNoPart ⟨false, true⟩ echoNode))
      (some (.dir [])) [echoCall .succeeded] (echoCache (ascii "http://n1/db.tar")) :=
    .single ⟨fun _ _ _ _ h ↦ absurd h (by simp [echoCall]), cacheable_echo, echoFile,
      cachedWget_echo_first .succeeded _ (.inl ⟨rfl, rfl⟩)⟩
  have hreuse : ¬(echoCall .succeeded).Downloads echoNode echoFile
      (echoCache (ascii "http://n1/db.tar")) := by
    intro h
    exact absurd (h.symm.trans (fileExists_echo .succeeded _)) (by decide)
  have hempty : ∀ name, Tree.reach (cacheDir ++ [name]) (some (.dir []) : FileSystem Bytes) = none :=
    fun name ↦ Tree.reach_none ([ascii "jepsen", ascii "wget-cache"] ++ [name])
  exact cachedWget_complete ⟨false, true⟩ echoNode (echoCall .succeeded) hempty hrun
    cacheable_echo (cachedWget_echo_next .succeeded _) hreuse

/-- A download that breaks off with an empty file: the next call hands the empty file out. -/
theorem cachedWget_partial :
    cachedWget ⟨false, true⟩ echoNode (.failed (some [])) (ascii "http://n1/db.tar") false
        (some (.dir [])) = .ok (echoFile, echoCache []) ∧
      fileExists echoNode .succeeded echoFile (echoCache []) = true ∧
      cachedWget ⟨false, true⟩ echoNode .succeeded (ascii "http://n1/db.tar") false
        (echoCache []) = .ok (echoFile, echoCache []) ∧
      Tree.reach (resolve echoNode.login echoFile) (echoCache []) = some (.file []) ∧
      echoNode.full (ascii "http://n1/db.tar") ≠ [] :=
  ⟨cachedWget_echo_first _ [] (.inr rfl), fileExists_echo _ [], cachedWget_echo_next _ [], rfl,
    by decide⟩

end ControlHelper

end Jepsen
