import SemanticQuery.Fingerprint.Sha256
import SemanticQuery.Text.Json

/-!
Fingerprints: the SHA-256 of a value's compact JSON text, in hexadecimal, whole or cut to the first
eight digits.
-/

namespace SemanticQuery

def digestChars (text : String) : List Char := (Sha256.hash text.toUTF8).hex

def digest (text : String) : String := String.ofList (digestChars text)

def shortDigest (text : String) : String := String.ofList ((digestChars text).take 8)

def Json.digest (j : Json) : String := SemanticQuery.digest j.compact

def Json.fingerprint (j : Json) : String := shortDigest j.compact

end SemanticQuery
