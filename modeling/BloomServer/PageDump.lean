import BloomServer.BufferedPages

/-! `PageManager::dumpmap`: the loop that saves the records of the map and takes them out of it. -/
namespace BloomServer

/-- What `dumpmap` works on. The entries of the map are listed by their ids; `saved` are the records
that went to the database and `freed` those that were deleted, oldest first. -/
structure PageDump where
  totalpagebufsize : UInt64
  pagemap : List (UInt64 × PageBuffer)
  stored : UInt64 → Option (List UInt8)
  saved : List UInt64
  freed : List UInt64

/-- `iter++`, `none` if there is no such entry (any more). The end of the map comes behind the last
entry. -/
def advance (iter : UInt64) : List (UInt64 × PageBuffer) → Option (Option UInt64)
  | [] => none
  | (id, _) :: rest => if id = iter then some (rest.head?.map Prod.fst) else advance iter rest

namespace PageDump

def store (d : PageDump) : PageStore := ⟨d.totalpagebufsize, fun id => d.pagemap.lookup id, d.stored⟩

/-- `SaveInDb` without a node. If there is a record already, the message that says so takes the id
from the node. -/
def saveInDb (Z : Zlib) (conf : PageConf) (d : PageDump) (pagebuf : PageBuffer) : Option PageDump :=
  if (d.stored pagebuf.urlnodeid).isSome then none
  else do
    let s ← d.store.saveInDb Z conf pagebuf
    return { d with stored := s.stored, saved := d.saved ++ [pagebuf.urlnodeid] }

def decreaseTotalBufSize (d : PageDump) (decreasesize : UInt64) : PageDump :=
  { d with totalpagebufsize := d.totalpagebufsize - decreasesize }

def free (d : PageDump) (pagebuf : PageBuffer) : PageDump :=
  { d with freed := d.freed ++ [pagebuf.urlnodeid] }

def erase (d : PageDump) (iter : UInt64) : PageDump :=
  { d with pagemap := d.pagemap.filter fun entry => entry.1 ≠ iter }

/-- A round of the loop, and the iterator for the next one. -/
def dumpRound (Z : Zlib) (conf : PageConf) (d : PageDump) (iter : UInt64) :
    Option (Option UInt64 × PageDump) := do
  let pagebuf ← d.pagemap.lookup iter
  let d ← d.saveInDb Z conf pagebuf
  let d := d.decreaseTotalBufSize (.ofInt pagebuf.totallength)
  let d := (d.free pagebuf).erase iter
  let iter ← advance iter d.pagemap
  return (iter, d)

/-- The loop, for so many rounds. -/
def dumpLoop (Z : Zlib) (conf : PageConf) : ℕ → Option UInt64 → PageDump → Option PageDump
  | _, none, d => some d
  | 0, some _, _ => none
  | n + 1, some iter, d => do
      let (iter, d) ← d.dumpRound Z conf iter
      dumpLoop Z conf n iter d

def dumpmap (Z : Zlib) (conf : PageConf) (rounds : ℕ) (d : PageDump) : Option PageDump :=
  dumpLoop Z conf rounds (d.pagemap.head?.map Prod.fst) d

/-- No record of the map is in the database. -/
def Fresh (d : PageDump) : Prop := ∀ entry ∈ d.pagemap, d.stored entry.2.urlnodeid = none

/-- The dump ends. Every record has been stored once, with its pages, and deleted once, and the map is
empty. -/
def Flushes (Z : Zlib) (conf : PageConf) (d : PageDump) : Prop :=
  ∃ rounds d', d.dumpmap Z conf rounds = some d' ∧ d'.pagemap = [] ∧
    d'.totalpagebufsize = d.pagemap.foldl (fun size entry => size - .ofInt entry.2.totallength)
      d.totalpagebufsize ∧
    d'.saved = d.saved ++ d.pagemap.map (·.2.urlnodeid) ∧
    d'.freed = d.freed ++ d.pagemap.map (·.2.urlnodeid) ∧
    ∀ entry ∈ d.pagemap, d'.stored entry.2.urlnodeid = entry.2.record Z conf

variable {Z : Zlib} {conf : PageConf} {d : PageDump} {iter : UInt64}

/-- There is no way on from an entry that has been erased. -/
theorem advance_erase (d : PageDump) (iter : UInt64) : advance iter (d.erase iter).pagemap = none := by
  unfold erase
  induction d.pagemap with
  | nil => rfl
  | cons entry rest ih =>
      by_cases here : entry.1 = iter
      · rw [List.filter_cons_of_neg (by simpa using here)]
        exact ih
      · rw [List.filter_cons_of_pos (by simpa using here), advance, if_neg here]
        exact ih

/-- The first round erases the entry that the iterator stands on. -/
theorem dumpRound_eq_none : d.dumpRound Z conf iter = none := by
  unfold dumpRound
  cases d.pagemap.lookup iter with
  | none => rfl
  | some pagebuf =>
      rw [Option.bind_eq_bind, Option.bind_some]
      cases d.saveInDb Z conf pagebuf with
      | none => rfl
      | some d' =>
          rw [Option.bind_eq_bind, Option.bind_some]
          dsimp only
          rw [advance_erase]
          rfl

theorem dumpmap_eq_none (some : d.pagemap ≠ []) (rounds : ℕ) : d.dumpmap Z conf rounds = none := by
  obtain ⟨entry, rest, split⟩ := List.exists_cons_of_ne_nil some
  rw [dumpmap, split]
  change dumpLoop Z conf rounds (.some entry.1) d = none
  cases rounds with
  | zero => rfl
  | succ n =>
      rw [dumpLoop, dumpRound_eq_none]
      rfl

end PageDump

/-- There is a way through the loop only if there is nothing to save. -/
theorem dumpmap_flushes_iff (Z : Zlib) (conf : PageConf) (d : PageDump) :
    d.Flushes Z conf ↔ d.pagemap = [] := by
  constructor
  · rintro ⟨rounds, d', run, -⟩
    by_contra some
    rw [PageDump.dumpmap_eq_none some] at run
    cases run
  · intro none
    refine ⟨0, d, ?_, none, ?_, ?_, ?_, ?_⟩
    · rw [PageDump.dumpmap, none]
      rfl
    · rw [none]
      rfl
    · rw [none, List.map_nil, List.append_nil]
    · rw [none, List.map_nil, List.append_nil]
    · rw [none]
      exact fun _ mem => nomatch mem

/-- One record, of one page. -/
def onePageDump : PageDump where
  totalpagebufsize := 1
  pagemap := [(7, ⟨Function.update (fun _ => none) 1 (some [97]), 2, 1, 1, 1, 1, 7⟩)]
  stored _ := none
  saved := []
  freed := []

theorem not_dumpmap_flushes :
    ¬ ∀ (Z : Zlib) (conf : PageConf) (d : PageDump), d.Fresh → d.Flushes Z conf := by
  intro claim
  have fresh : onePageDump.Fresh := fun _ _ => rfl
  have empty := (dumpmap_flushes_iff zlibOfPages ⟨12288000, 0⟩ onePageDump).mp (claim _ _ _ fresh)
  cases empty

end BloomServer
