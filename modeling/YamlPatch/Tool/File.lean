import YamlPatch.Number.Decimal
import YamlPatch.Tree.Parse

/-!
# Documents in files

A file is bytes. A document is read from it in three steps, each of which may fail : the bytes
are fetched (`ReadFault.system`), they are text in UTF-8 (`ReadFault.notText`), and the text
has no fault. A byte order mark is a character like any other. Writing is the way back.
-/

namespace YamlPatch.Tool

/-- Why a file has no text. -/
inductive ReadFault where
  /-- What the system says, with the number of the error. -/
  | system (text : String) (code : Nat)
  /-- The name holds the character NUL, which no name may hold. -/
  | badName
  /-- The bytes are not UTF-8. -/
  | notText
  deriving DecidableEq, Repr

namespace ReadFault

def notFound : ReadFault := system "No such file or directory" 2

def notFolder : ReadFault := system "Not a directory" 20

def isFolder : ReadFault := system "Is a directory" 21

def nameTooLong : ReadFault := system "File name too long" 36

def message : ReadFault → Text
  | system text code => text.toList ++ " (os error ".toList ++ naturalText code ++ [')']
  | badName => "file name contained an unexpected NUL byte".toList
  | notText => "stream did not contain valid UTF-8".toList

end ReadFault

/-- Why a file holds no document. -/
inductive LoadError where
  | unreadable (f : ReadFault)
  | faulty (faults : List Fault)
  deriving Repr

def LoadError.message : LoadError → Text
  | unreadable f => "I/O error: ".toList ++ f.message
  | faulty faults => "Parse error: ".toList ++ (Fault.summary faults).toList

/-- The text that bytes are. -/
def decodeText (bytes : ByteArray) : Except ReadFault Text :=
  match String.fromUTF8? bytes with
  | some s => .ok s.toList
  | none => .error .notText

/-- The bytes of a text. -/
def encodeText (t : Text) : ByteArray := (String.ofList t).toUTF8

/-- The document in a file, from what fetching its bytes gave. -/
def load (fetched : Except ReadFault ByteArray) : Except LoadError Tree :=
  match fetched.bind decodeText with
  | .error f => .error (.unreadable f)
  | .ok t =>
    match parseStrict t with
    | .error faults => .error (.faulty faults)
    | .ok tree => .ok tree

/-- A document that was written is read as it was, if its text has no fault. -/
theorem load_encodeText {t : Text} {tree : Tree} (h : parseStrict t = .ok tree) :
    load (.ok (encodeText t)) = .ok tree := by
  have hs : String.fromUTF8? (String.ofList t).toUTF8 = some (String.ofList t) :=
    dif_pos (String.ofList t).isValidUTF8
  have hd : decodeText (encodeText t) = .ok t := by
    rw [decodeText, encodeText, hs]
    simp
  have hb : Except.bind (Except.ok (encodeText t)) decodeText = decodeText (encodeText t) := rfl
  unfold load
  rw [hb, hd]
  simp only [h]

end YamlPatch.Tool
