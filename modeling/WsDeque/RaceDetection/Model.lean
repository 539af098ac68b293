import WsDeque.Grouping

/-
The determinacy-race detector: series-parallel computations as built with `Dag`,
the two depth-first numberings, and the search for conflicts.
-/

namespace WsDeque.RaceDetection

abbrev Location := Nat

structure Access where
  location : Location
  isWrite : Bool
  deriving DecidableEq

inductive Node
  | strand (accesses : List Access)
  | series (children : List Node)
  | parallel (children : List Node)

structure Race where
  location : Location
  strandA : Nat
  strandB : Nat
  writeA : Bool
  writeB : Bool
  deriving DecidableEq

/-! ### Building a computation -/

structure StrandBuilder where
  accesses : List Access

def StrandBuilder.read (builder : StrandBuilder) (location : Location) : StrandBuilder :=
  { accesses := builder.accesses ++ [{ location := location, isWrite := false }] }

def StrandBuilder.write (builder : StrandBuilder) (location : Location) : StrandBuilder :=
  { accesses := builder.accesses ++ [{ location := location, isWrite := true }] }

structure Dag where
  children : List Node

def Dag.new : Dag :=
  { children := [] }

def Dag.strand (dag : Dag) (build : StrandBuilder → StrandBuilder) : Dag :=
  { children := dag.children ++ [.strand (build { accesses := [] }).accesses] }

def Dag.series (dag : Dag) (build : Dag → Dag) : Dag :=
  { children := dag.children ++ [.series (build Dag.new).children] }

def Dag.parallel (dag : Dag) (build : Dag → Dag) : Dag :=
  { children := dag.children ++ [.parallel (build Dag.new).children] }

/-! ### The two numberings -/

structure StrandInfo where
  english : Nat
  hebrew : Nat
  accesses : List Access

/-- `usize::MAX`, until the Hebrew pass. -/
def unranked : Nat := UInt64.size - 1

mutual

def assignEnglish (node : Node) (counter : Nat) (out : List StrandInfo) :
    Nat × List StrandInfo :=
  match node with
  | .strand accesses =>
      (counter + 1, out ++ [{ english := counter, hebrew := unranked, accesses := accesses }])
  | .series children | .parallel children => assignEnglishAll children counter out

def assignEnglishAll (children : List Node) (counter : Nat) (out : List StrandInfo) :
    Nat × List StrandInfo :=
  match children with
  | [] => (counter, out)
  | child :: rest =>
      let done := assignEnglish child counter out
      assignEnglishAll rest done.1 done.2

end

mutual

def countStrands : Node → Nat
  | .strand _ => 1
  | .series children | .parallel children => countStrandsAll children

def countStrandsAll : List Node → Nat
  | [] => 0
  | child :: rest => countStrands child + countStrandsAll rest

end

/-- The Hebrew counter, the records and the English cursor. -/
structure Walk where
  hebrew : Nat
  out : List StrandInfo
  englishCursor : Nat

mutual

def hebrewWalk (node : Node) (walk : Walk) : Walk :=
  match node with
  | .strand _ =>
      { hebrew := walk.hebrew + 1
        out := walk.out.modify walk.englishCursor fun info => { info with hebrew := walk.hebrew }
        englishCursor := walk.englishCursor + 1 }
  | .series children => hebrewSeries children walk
  | .parallel children =>
      { hebrewParallel children walk with
        englishCursor := walk.englishCursor + countStrandsAll children }

def hebrewSeries (children : List Node) (walk : Walk) : Walk :=
  match children with
  | [] => walk
  | child :: rest => hebrewSeries rest (hebrewWalk child walk)

/-- The loop over `zip(bases).rev()`: the children further right come first, each
with its own English base. -/
def hebrewParallel (children : List Node) (walk : Walk) : Walk :=
  match children with
  | [] => walk
  | child :: rest =>
      let later := hebrewParallel rest
        { walk with englishCursor := walk.englishCursor + countStrands child }
      hebrewWalk child { later with englishCursor := walk.englishCursor }

end

/-- The Hebrew pass over the children of the root. -/
def hebrewRoot : List Node → Nat → List StrandInfo → Nat → List StrandInfo
  | [], _, strands, _ => strands
  | child :: rest, hebrew, strands, base =>
      let done := hebrewWalk child { hebrew := hebrew, out := strands, englishCursor := base }
      hebrewRoot rest done.hebrew done.out (base + countStrands child)

def rankStrands (dag : Dag) : List StrandInfo :=
  hebrewRoot dag.children 0 (assignEnglishAll dag.children 0 []).2 0

/-! ### Conflicts -/

def inParallel (a b : StrandInfo) : Bool :=
  (decide (a.english < b.english)) != (decide (a.hebrew < b.hebrew))

/-- `strands[index]`. -/
def strandAt (strands : List StrandInfo) (index : Nat) : StrandInfo :=
  strands.getD index { english := 0, hebrew := unranked, accesses := [] }

/-- The body of the double loop. -/
def raceOf (strands : List StrandInfo) (location : Location) (a b : Nat × Bool) : Option Race :=
  if a.1 = b.1 || !(a.2 || b.2) || !inParallel (strandAt strands a.1) (strandAt strands b.1) then
    none
  else
    some
      { location := location
        strandA := (strandAt strands a.1).english
        strandB := (strandAt strands b.1).english
        writeA := a.2
        writeB := b.2 }

def racesAtLocation (strands : List StrandInfo) (location : Location) :
    List (Nat × Bool) → List Race
  | [] => []
  | accessor :: later =>
      later.filterMap (raceOf strands location accessor) ++
        racesAtLocation strands location later

/-- `(si, a.is_write)` under its location, in the order of the loops. -/
def accessors (strands : List StrandInfo) : List (Location × (Nat × Bool)) :=
  strands.zipIdx.flatMap fun strand =>
    strand.1.accesses.map fun access => (access.location, (strand.2, access.isWrite))

/-- The order in which a `HashMap` happens to list its entries. -/
structure IterationOrder where
  arrange : List (Location × List (Nat × Bool)) → List (Location × List (Nat × Bool))
  perm : ∀ entries, (arrange entries).Perm entries

def findRaces (order : IterationOrder) (strands : List StrandInfo) : List Race :=
  (order.arrange (groupByKey (accessors strands))).flatMap fun entry =>
    racesAtLocation strands entry.1 entry.2

def Dag.detectRaces (order : IterationOrder) (dag : Dag) : List Race :=
  findRaces order (rankStrands dag)

end WsDeque.RaceDetection
