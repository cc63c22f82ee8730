import CloudyNeigh.GcsStore
import CloudyNeigh.LocalDisk

/-!
# Opening a store by its URL

`Open` on a parsed URL. Whatever the working directory and the symbolic links, the
root of a local store is an absolute and clean path.
-/
namespace CloudyNeigh.ObjectStore
open RecordIO SlashPath
open LogStream (ascii)

/-- `createDir` is `Query().Get("create_dir") == "true"`. -/
structure URL where
  Scheme : Bytes
  Host : Bytes
  Path : Bytes
  createDir : Bool
  deriving DecidableEq, Repr

/-- What `Open` asks of the system. Resolved paths are absolute and clean. -/
structure System where
  Getwd : Option { p : SlashPath.Path // IsAbs p = true }
  EvalSymlinks : SlashPath.Path → Option { p : SlashPath.Path // Rooted p }
  MkdirAll : SlashPath.Path → Bool
  NewClient : Bool

inductive OpenErr
  | fileNeedsPath
  | gsNeedsBucket
  | unsupportedScheme (scheme : Bytes)
  | system
  deriving DecidableEq, Repr

inductive Opened
  | mem (m : MemStore)
  | file (s : LocalDisk.Store)
  | gs (bucket : Bytes) (g : GcsStore.Store)

lemma join_rooted {wd : SlashPath.Path} (h : IsAbs wd = true) (dir : SlashPath.Path) :
    Rooted (Join [wd, dir]) := by
  obtain ⟨x, rest, rfl⟩ : ∃ x rest, wd = x :: rest := by
    cases wd with
    | nil => simp [IsAbs] at h
    | cons x rest => exact ⟨x, rest, rfl⟩
  have habs : IsAbs ([sep].intercalate [x :: rest, dir]) = true := by
    simpa [IsAbs, List.intercalate_cons_cons] using h
  simpa [Join] using clean_rooted habs

/-- `filepath.Abs`. -/
def System.Abs (sys : System) (dir : SlashPath.Path) : Option { p : SlashPath.Path // Rooted p } :=
  if h : IsAbs dir = true then some ⟨Clean dir, clean_rooted h⟩
  else sys.Getwd.map fun wd => ⟨Join [wd.1, dir], join_rooted wd.2 dir⟩

def newLocalStore (sys : System) (dir : SlashPath.Path) : Except OpenErr LocalDisk.Store :=
  match sys.Abs dir with
  | none => .error .system
  | some abs =>
    let resolved := (sys.EvalSymlinks abs.1).getD abs
    .ok ⟨resolved.1, resolved.2⟩

/-- `strings.Trim(s, "/")`. -/
def trimSlashes (s : Bytes) : Bytes :=
  ((s.dropWhile (· = sep)).reverse.dropWhile (· = sep)).reverse

/-- The bucket and the prefix of a `gs` URL. -/
def bucketAndPrefix (u : URL) : Bytes × Bytes :=
  if u.Host ≠ [] then (u.Host, trimSlashes u.Path)
  else
    let trimmed := trimSlashes u.Path
    (trimmed.takeWhile (· ≠ sep), (trimmed.dropWhile (· ≠ sep)).tail)

def Open (sys : System) (u : URL) : Except OpenErr Opened :=
  if u.Scheme = ascii "mem" then .ok (.mem .newMemStore)
  else if u.Scheme = ascii "file" then
    let path := if u.Path = [] ∧ u.Host ≠ [] then u.Host else u.Path
    if path = [] then .error .fileNeedsPath
    else if u.createDir = true ∧ sys.MkdirAll path = false then .error .system
    else (newLocalStore sys path).map .file
  else if u.Scheme = ascii "gs" then
    let (bucket, pfx) := bucketAndPrefix u
    if bucket = [] then .error .gsNeedsBucket
    else if sys.NewClient = false then .error .system
    else .ok (.gs bucket ⟨pfx⟩)
  else .error (.unsupportedScheme u.Scheme)

end CloudyNeigh.ObjectStore
