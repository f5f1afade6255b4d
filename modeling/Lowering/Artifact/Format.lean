import Lowering.Artifact.Binary
import Lowering.Artifact.Json

/-!
The formats that a document can be written in, by name.
-/

namespace Lowering.Artifact

/-- A library for the binary form of documents. -/
structure Codec where
  marshal : Document → Option (List UInt8)
  unmarshal : List UInt8 → Option Document

/-- The binary form in CBOR. -/
def binary (h : Heap) : Codec where
  marshal d := some (d.encode h)
  unmarshal := Document.decode?

/-- What is written: text or bytes. -/
inductive Content
  | text (s : String)
  | bytes (bs : List UInt8)

/-- Writes a document in a named format. `style` is that of the textual format. -/
def Document.write (codec : Codec) (d : Document) (format : String) (style : Style) :
    Except String Content :=
  if format = "json" then (d.json style).map .text
  else if format = "cbor" then
    match codec.marshal d with
    | some bytes => .ok (.bytes bytes)
    | none => .error "document cannot be written"
  else .error ("unknown artifact format: " ++ format)

end Lowering.Artifact
