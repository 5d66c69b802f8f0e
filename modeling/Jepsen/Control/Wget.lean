import Jepsen.Control.Node
import Jepsen.Library.Transition

/-!
# The download cache

`ControlHelper::cachedWget` keeps a file for each URL, under the Base64 encoding of the URL.
-/

namespace Jepsen

open Library

namespace ControlHelper

def kTempDir : Bytes := ascii "/tmp/jepsen"

def kWgetCacheDir : Bytes := kTempDir ++ ascii "/wget-cache"

variable {β : Type}

/-- The build decides whether assertions count and whether `char` is signed. -/
structure Build where
  ndebug : Bool
  signed : Bool

def destFile (build : Build) (url : Bytes) : Except Failure Bytes := do
  let encoded_url ← Base64Coder.base64Encode build.ndebug build.signed url
  return kWgetCacheDir ++ ascii "/" ++ encoded_url

/-- `exists`. -/
def fileExists (node : Node β) (download : Download β) (filename : Bytes) (o : FileSystem β) :
    Bool :=
  (SSHRemote.execute node download (.stat filename) o).1.1

/-- "Clearing caced copy of", where the caller forces a download. -/
def cleared (node : Node β) (download : Download β) (dest_file : Bytes) (force : Bool)
    (o : FileSystem β) : FileSystem β :=
  if force then SSHRemote.sudoExecute node download (.rm dest_file) o else o

def cachedWget (build : Build) (node : Node β) (download : Download β) (url : Bytes)
    (force : Bool) (o : FileSystem β) : Except Failure (Bytes × FileSystem β) := do
  let dest_file ← destFile build url
  let o := cleared node download dest_file force o
  if !fileExists node download dest_file o then
    let o := SSHRemote.sudoExecute node download (.mkdir kWgetCacheDir) o
    let o := SSHRemote.sudoExecute node download (.wget dest_file url) o
    return (dest_file, o)
  else
    return (dest_file, o)

/-! ## The keys of the cache -/

/-- `file` is an entry of the directory `dir` itself. -/
def DirectChild (dir file : Bytes) : Prop := ∃ name, ProperName name ∧ file = dir ++ slash :: name

/-- No group of six bits of the URL is 63, the number of `/`: a group may lie in one byte, or take
the low bits of one and the high bits of the next. -/
def SlashFree : Bytes → Prop
  | a :: b :: c :: url =>
    a.toNat < 252 ∧ ¬(a.toNat % 4 = 3 ∧ 240 ≤ b.toNat) ∧ ¬(b.toNat % 16 = 15 ∧ 192 ≤ c.toNat) ∧
      c.toNat % 64 ≠ 63 ∧ SlashFree url
  | [a, b] => a.toNat < 252 ∧ ¬(a.toNat % 4 = 3 ∧ 240 ≤ b.toNat)
  | [a] => a.toNat < 252
  | [] => True

-- Where the groups of a byte and its neighbour are 63.
theorem high_eq_iff (a : UInt8) : ¬63 = a.toNat / 4 ↔ a.toNat < 252 := by
  have ha := a.toNat_lt
  omega

theorem middle_eq_iff (a b : UInt8) :
    ¬63 = a.toNat % 4 * 16 + b.toNat / 16 ↔ ¬(a.toNat % 4 = 3 ∧ 240 ≤ b.toNat) := by
  have hb := b.toNat_lt
  omega

theorem low_eq_iff (b c : UInt8) :
    ¬63 = b.toNat % 16 * 4 + c.toNat / 64 ↔ ¬(b.toNat % 16 = 15 ∧ 192 ≤ c.toNat) := by
  have hc := c.toNat_lt
  omega

theorem slashFree_iff (url : Bytes) : SlashFree url ↔ 63 ∉ Base64Coder.sextets url := by
  -- One case for each way a string ends, since the last group has fewer sextets.
  induction url using Base64Coder.sextets.induct with
  | case1 a b c url ih =>
    rw [SlashFree, Base64Coder.sextets, List.mem_cons, List.mem_cons, List.mem_cons, List.mem_cons,
      not_or, not_or, not_or, not_or, high_eq_iff, middle_eq_iff, low_eq_iff, ih, ne_eq,
      @eq_comm _ 63 (c.toNat % 64)]
  | case2 a b =>
    have hlast : ¬63 = b.toNat % 16 * 4 := by omega
    rw [SlashFree, Base64Coder.sextets, List.mem_cons, List.mem_cons, List.mem_singleton, not_or,
      not_or, high_eq_iff, middle_eq_iff, and_iff_left hlast]
  | case3 a =>
    have hlast : ¬63 = a.toNat % 4 * 16 := by omega
    rw [SlashFree, Base64Coder.sextets, List.mem_cons, List.mem_singleton, not_or, high_eq_iff,
      and_iff_left hlast]
  | case4 => simp [SlashFree, Base64Coder.sextets]

theorem alphabet_eq_slash : ∀ d < 64, Base64Coder.alphabet d = slash ↔ d = 63 := by decide

theorem alphabet_ne_dot : ∀ d < 64, Base64Coder.alphabet d ≠ 46 := by decide

theorem mem_rfc4648 {url : Bytes} {c : UInt8} (h : c ∈ Base64Coder.rfc4648 url) :
    c = Base64Coder.pad ∨ ∃ d ∈ Base64Coder.sextets url, Base64Coder.alphabet d = c := by
  rcases List.mem_append.mp h with h | h
  · exact .inr (List.mem_map.mp h)
  · exact .inl (List.eq_of_mem_replicate h)

theorem slash_mem_rfc4648 (url : Bytes) :
    slash ∈ Base64Coder.rfc4648 url ↔ 63 ∈ Base64Coder.sextets url := by
  constructor
  · intro h
    rcases mem_rfc4648 h with h | ⟨d, hd, hslash⟩
    · exact absurd h (by decide)
    · exact (alphabet_eq_slash d (Base64Coder.sextets_lt url d hd)).mp hslash ▸ hd
  · intro h
    exact List.mem_append_left _ (List.mem_map.mpr ⟨63, h, by decide⟩)

theorem dot_not_mem_rfc4648 (url : Bytes) : 46 ∉ Base64Coder.rfc4648 url := by
  intro h
  rcases mem_rfc4648 h with h | ⟨d, hd, hdot⟩
  · exact absurd h (by decide)
  · exact alphabet_ne_dot d (Base64Coder.sextets_lt url d hd) hdot

theorem rfc4648_ne_nil {url : Bytes} (h : url ≠ []) : Base64Coder.rfc4648 url ≠ [] := by
  intro hnil
  have hlen := congrArg List.length hnil
  have hsextets := Base64Coder.length_sextets url
  have hpos := List.length_pos_iff.mpr h
  simp only [Base64Coder.rfc4648, List.length_append, List.length_map, List.length_replicate,
    List.length_nil] at hlen
  omega

theorem rfc4648_injective : Function.Injective Base64Coder.rfc4648 := by
  intro url url' h
  have hdecode := Base64Coder.base64Decode_eq true (.refl (Base64Coder.rfc4648 url))
  rw [h, Base64Coder.base64Decode_eq true (.refl _)] at hdecode
  exact (Except.ok.inj hdecode).symm

theorem properName_rfc4648 {url : Bytes} (h : url ≠ []) (hslash : SlashFree url) :
    ProperName (Base64Coder.rfc4648 url) where
  ne_nil := rfc4648_ne_nil h
  ne_dot hdot := dot_not_mem_rfc4648 url (hdot ▸ by decide)
  ne_dots hdot := dot_not_mem_rfc4648 url (hdot ▸ by decide)
  no_slash := fun hmem ↦ (slashFree_iff url).mp hslash ((slash_mem_rfc4648 url).mp hmem)

theorem destFile_eq (build : Build) {url : Bytes} (h : url ≠ [])
    (hlen : url.length ≤ sizeMax / 4 * 3) :
    destFile build url = .ok (kWgetCacheDir ++ slash :: Base64Coder.rfc4648 url) := by
  rw [destFile, Base64Coder.base64Encode_eq build.ndebug build.signed hlen, if_pos (.inr h)]
  rfl

-- A longer URL has no path, and in a build with assertions the empty one has none.
theorem length_le_of_destFile {build : Build} {url file : Bytes}
    (h : destFile build url = .ok file) : url.length ≤ sizeMax / 4 * 3 := by
  by_contra hlen
  rw [destFile, Base64Coder.base64Encode, if_pos (Nat.lt_of_not_le hlen)] at h
  exact absurd h (by simp [bind, Except.bind])

theorem eq_of_destFile {build : Build} {url file : Bytes} (h : destFile build url = .ok file) :
    file = kWgetCacheDir ++ slash :: Base64Coder.rfc4648 url := by
  rw [destFile, Base64Coder.base64Encode_eq _ _ (length_le_of_destFile h)] at h
  split at h
  · exact (Except.ok.inj h).symm
  · exact absurd h (by simp [bind, Except.bind])

/-- The encoding of the URL names an entry of the cache directory. -/
def Cacheable (build : Build) (url : Bytes) : Prop :=
  ∃ file, destFile build url = .ok file ∧ DirectChild kWgetCacheDir file

theorem cacheable_iff (build : Build) {url : Bytes} (h : url ≠ []) :
    Cacheable build url ↔ url.length ≤ sizeMax / 4 * 3 ∧ SlashFree url := by
  constructor
  · rintro ⟨file, hfile, ⟨name, hname, rfl⟩⟩
    have hencoded := List.cons.inj (List.append_cancel_left (eq_of_destFile hfile))
    refine ⟨length_le_of_destFile hfile, (slashFree_iff url).mpr fun hmem ↦ hname.no_slash ?_⟩
    rw [hencoded.2]
    exact (slash_mem_rfc4648 url).mpr hmem
  · rintro ⟨hlen, hslash⟩
    exact ⟨_, destFile_eq build h hlen, _, properName_rfc4648 h hslash, rfl⟩

theorem destFile_injective {build : Build} {u v file : Bytes}
    (hfu : destFile build u = .ok file) (hfv : destFile build v = .ok file) : u = v := by
  have h := List.append_cancel_left ((eq_of_destFile hfu).symm.trans (eq_of_destFile hfv))
  exact rfc4648_injective (List.cons.inj h).2

/-- The cache keys URLs soundly exactly where the encoding has no `/`: different URLs have different
files in any case. -/
theorem destFile_sound_iff (build : Build) (u v : Bytes) (hu : u ≠ []) :
    (Cacheable build u ∧ ∀ file, destFile build u = .ok file → destFile build v = .ok file →
        u = v) ↔
      u.length ≤ sizeMax / 4 * 3 ∧ SlashFree u :=
  ⟨fun h ↦ (cacheable_iff build hu).mp h.1,
    fun h ↦ ⟨(cacheable_iff build hu).mpr h, fun _ hfu hfv ↦ destFile_injective hfu hfv⟩⟩

theorem destFile_sound_zip :
    (Cacheable ⟨false, true⟩ (ascii "http://n1/db.zip") ∧
        ∀ file, destFile ⟨false, true⟩ (ascii "http://n1/db.zip") = .ok file →
          destFile ⟨false, true⟩ (ascii "http://n1/db.tar") = .ok file →
            ascii "http://n1/db.zip" = ascii "http://n1/db.tar") ↔
      (ascii "http://n1/db.zip").length ≤ sizeMax / 4 * 3 ∧ SlashFree (ascii "http://n1/db.zip") :=
  destFile_sound_iff ⟨false, true⟩ _ _ (by decide)

/-- A question mark as the third byte of a group is a `/` in the encoding. -/
theorem destFile_not_directChild :
    ∃ file, destFile ⟨false, true⟩ (ascii "http://n1/x?v=1") = .ok file ∧
      ¬DirectChild kWgetCacheDir file := by
  refine ⟨ascii "/tmp/jepsen/wget-cache/aHR0cDovL24xL3g/dj0x", by decide, ?_⟩
  rintro ⟨name, hname, h⟩
  have hsplit : ascii "/tmp/jepsen/wget-cache/aHR0cDovL24xL3g/dj0x" =
      kWgetCacheDir ++ slash :: ascii "aHR0cDovL24xL3g/dj0x" := by decide
  rw [hsplit] at h
  rw [← (List.cons.inj (List.append_cancel_left h)).2] at hname
  exact hname.no_slash (by decide)

end ControlHelper

end Jepsen
