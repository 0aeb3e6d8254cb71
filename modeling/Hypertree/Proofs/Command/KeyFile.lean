import Hypertree.Proofs.Command.Files
import Hypertree.Proofs.Key.Codec

/-!
# Key files are read back

A well-formed key that was written to a key file is read back with the same index
(`readPrivateKey_keyFileContent`), and whatever is read from a key file is well formed. What is read
depends on nothing but the content of the file.
-/

namespace Hypertree.Command

variable {source source' : Source} {path path' : String} {key : PrivateKey}

theorem readBytes_eq_ok_iff {failure : Failure} {bytes : Bytes} :
    readBytes source path failure = .ok bytes ↔ source path = some bytes := by
  unfold readBytes
  cases source path <;> simp

theorem readPrivateKey_eq_ok_iff : readPrivateKey source path = .ok key ↔
    ∃ text, (source path).bind Text.ofUtf8? = some text ∧ privateKeyOfText text = .ok key := by
  rw [readPrivateKey, readText]
  cases (source path).bind Text.ofUtf8? with
  | none => exact iff_of_false (nomatch ·) fun ⟨_, h, _⟩ => nomatch h
  | some text => exact ⟨fun h => ⟨text, rfl, h⟩, fun ⟨_, htext, h⟩ => Option.some.inj htext ▸ h⟩

theorem readPrivateKey_congr (h : source path = source' path') :
    readPrivateKey source path = .ok key ↔ readPrivateKey source' path' = .ok key := by
  rw [readPrivateKey_eq_ok_iff, readPrivateKey_eq_ok_iff, h]

theorem wellFormed_of_readPrivateKey (h : readPrivateKey source path = .ok key) :
    key.WellFormed := by
  obtain ⟨text, -, hkey⟩ := readPrivateKey_eq_ok_iff.mp h
  unfold privateKeyOfText at hkey
  split at hkey
  · exact nomatch hkey
  · exact PrivateKey.wellFormed_of_ofBytes (mapError_eq_ok_iff.mp hkey)

/-- **A key that was written is read back**, with its caches at the leaves that its index uses. -/
theorem readPrivateKey_keyFileContent (h : key.WellFormed)
    (hread : source path = some (keyFileContent key)) :
    readPrivateKey source path
      = .ok { key with caches := key.caches.atIndex key.header.treeHeight key.index } := by
  refine readPrivateKey_eq_ok_iff.mpr ⟨Text.hex key.toBytes, ?_, ?_⟩
  · rw [hread]
    exact Text.ofUtf8?_utf8 _
  · have htrim : Text.trim (Text.hex key.toBytes) = Text.hex key.toBytes :=
      Text.trim_eq fun c hc => (Text.isDigit_of_mem_hex hc).not_blank
    rw [privateKeyOfText, htrim, Text.ofHex?_hex]
    exact mapError_eq_ok_iff.mpr (PrivateKey.ofBytes_toBytes h)

/-- There is a place for a key file that can be read. -/
theorem place?_isSome_of_readPrivateKey {files : Files}
    (h : readPrivateKey files.read? path = .ok key) : (files.place? path).isSome := by
  obtain ⟨text, htext, -⟩ := readPrivateKey_eq_ok_iff.mp h
  cases hplace : files.place? path with
  | some place => rfl
  | none =>
    rw [Files.read?, hplace] at htext
    exact nomatch htext

end Hypertree.Command
