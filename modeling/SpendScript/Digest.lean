/-
  The digests that scripts, locking conditions and transactions use: the three block hashes and the
  two that apply one hash to the digest of another.
-/
import SpendScript.Digest.Ripemd160
import SpendScript.Digest.Sha1
import SpendScript.Digest.Sha256

namespace SpendScript

namespace Digest

/-- SHA-256 applied twice. -/
def hash256 (message : Bytes) : Bytes := sha256 (sha256 message)

/-- RIPEMD-160 of the SHA-256 digest. -/
def hash160 (message : Bytes) : Bytes := ripemd160 (sha256 message)

@[simp] theorem length_hash256 (message : Bytes) : (hash256 message).length = 32 := by
  simp [hash256]

@[simp] theorem length_hash160 (message : Bytes) : (hash160 message).length = 20 := by
  simp [hash160]

end Digest

end SpendScript
