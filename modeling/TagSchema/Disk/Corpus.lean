import TagSchema.Disk
import TagSchema.Reading

/-! The corpus that files make up. -/
namespace TagSchema.Disk

inductive CorpusFailure where
  | unreadable (path : String) (reason : Unreadable)
  | faulty (fault : Fault)
  deriving DecidableEq, Repr

def CorpusFailure.message : CorpusFailure → String
  | unreadable path reason => "failed to read `" ++ path ++ "`: " ++ reason.message
  | faulty fault => fault.display

/-- Loads and reads file by file, so the first failure in the order of the files counts. -/
def readFiles (disk : Disk) : List String → Reading → Except CorpusFailure Reading
  | [], reading => .ok reading
  | path :: paths, reading =>
    match disk.readText path with
    | .error reason => .error (.unreadable path reason)
    | .ok text =>
      match reading.file path text with
      | .error fault _ => .error (.faulty fault)
      | .ok () reading => disk.readFiles paths reading

def corpus (disk : Disk) (paths : List String) : Except CorpusFailure Corpus := do
  let reading ← disk.readFiles paths .standard
  reading.finish.mapError .faulty

end TagSchema.Disk
