import Mathlib.Data.List.Forall2
import OsCourse.Lib.Fields
import OsCourse.Monitoring.Model

/-!
# OsCourse.Monitoring.Paths

The roads of the paths (`setPaths` of `main.cpp`). A path is given by its nodes,
and `setPaths` looks for the roads from one node to the next.

It looks one node ahead from the last node as well. Only because of `&&` this
does no harm as long as no road starts there: the node behind the end is read
for the first road that does (`setPaths_iff`).
-/

namespace OsCourse.Monitoring

open OsCourse.Lib

/-- `struct Point` with all its fields. -/
structure Road extends Point where
  h : Int
  deriving DecidableEq, Repr

/-- `struct Path`. The numbers have no value in a new one. -/
structure Path where
  pathSequence : List Road
  numOfCarsInSource : Option Int
  id : Option Nat
  deriving DecidableEq, Repr

/-- A `Path` with its roads pushed. -/
def Path.new (pathSequence : List Road) : Path := ⟨pathSequence, none, none⟩

/-! ### `setPaths` -/

/-- The test of a road, at a node with `next` behind it. Nothing can be read
behind the last node. -/
def leads (node : String) (next : Option String) (p : Road) : Option Bool :=
  if node = p.source then next.map fun next => decide (next = p.destination) else some false

/-- The loop over `j`, with `pathSequence` so far. -/
def pushRoads (node : String) (next : Option String) :
    List Road → List Road → Option (List Road)
  | [], pathSequence => some pathSequence
  | p :: ps, pathSequence =>
      (leads node next p).bind fun found =>
        pushRoads node next ps (if found then pathSequence ++ [p] else pathSequence)

/-- The loop over `k`. -/
def pushPath (allPoints : List Road) : List String → List Road → Option (List Road)
  | [], pathSequence => some pathSequence
  | node :: nodes, pathSequence =>
      (pushRoads node nodes.head? allPoints pathSequence).bind (pushPath allPoints nodes)

/-- The first loop, over the even positions of `pathsInf`. -/
def newPaths (allPoints : List Road) : List (List String) → List Path → Option (List Path)
  | [], paths => some paths
  | nodes :: pathsInf, paths =>
      (pushPath allPoints nodes []).bind fun pathSequence =>
        match pathsInf with
        | [] => some (paths ++ [.new pathSequence])
        | _ :: pathsInf => newPaths allPoints pathsInf (paths ++ [.new pathSequence])

/-- `stoi(pathsInf[i][0])`. -/
def carCount (row : List String) : Option Int :=
  row.head?.bind fun word => stoi word.toUTF8.data.toList

/-- The second loop, over the odd positions of `pathsInf`. -/
def setCounts : List (List String) → Nat → List Path → Option (List Path)
  | _ :: row :: pathsInf, index, paths => do
      let n ← carCount row
      let p ← paths[index]?
      setCounts pathsInf (index + 1)
        (paths.set index { p with numOfCarsInSource := some n, id := some (index + 1) })
  | _, _, paths => some paths

/-- `setPaths`: `paths` afterwards. -/
def setPaths (pathsInf : List (List String)) (paths : List Path) (allPoints : List Road) :
    Option (List Path) :=
  (newPaths allPoints pathsInf paths).bind (setCounts pathsInf 0)

/-! ### One path -/

/-- `roads` are roads of the map, from every node to the next. -/
def IsRoute (allPoints : List Road) (nodes : List String) (roads : List Road) : Prop :=
  List.Forall₂ (fun ab p => p ∈ allPoints ∧ p.source = ab.1 ∧ p.destination = ab.2)
    (nodes.zip nodes.tail) roads

/-- Every road has other ends. -/
def Distinct (allPoints : List Road) : Prop :=
  allPoints.Pairwise fun p q => p.toPoint ≠ q.toPoint

/-- A road starts where the path ends. -/
def Leaves (allPoints : List Road) (nodes : List String) : Prop :=
  ∃ p ∈ allPoints, nodes.getLast? = some p.source

variable {allPoints roads : List Road} {nodes : List String} {node next : String}

/-- Between two nodes, the roads that join them are found. -/
theorem pushRoads_eq (ps roads : List Road) : pushRoads node (some next) ps roads =
    some (roads ++ ps.filter fun p => p.source = node ∧ p.destination = next) := by
  induction ps generalizing roads with
  | nil => simp [pushRoads]
  | cons p ps ih =>
      rw [pushRoads, leads, List.filter_cons]
      by_cases hsource : node = p.source
      · subst hsource
        by_cases hdest : next = p.destination
        · subst hdest
          simp [ih]
        · simp [hdest, Ne.symm hdest, ih]
      · simp [hsource, Ne.symm hsource, ih]

/-- Of distinct roads one is found. -/
theorem filter_of_distinct (hdistinct : Distinct allPoints) {p : Road} (hp : p ∈ allPoints) :
    allPoints.filter (fun q => q.source = p.source ∧ q.destination = p.destination) = [p] := by
  induction allPoints with
  | nil => cases hp
  | cons q qs ih =>
      obtain ⟨hq, hqs⟩ := List.pairwise_cons.mp hdistinct
      have hends : ∀ r s : Road, r.toPoint ≠ s.toPoint →
          ¬ (r.source = s.source ∧ r.destination = s.destination) := by
        intro r s hne heq
        exact hne (by cases hr : r.toPoint; cases hs : s.toPoint; simp_all)
      rw [List.filter_cons]
      rcases List.mem_cons.mp hp with rfl | hmem
      · rw [if_pos (by simp)]
        congr 1
        refine List.filter_eq_nil_iff.mpr fun r hr => ?_
        simpa using hends r p (Ne.symm (hq r hr))
      · rw [if_neg (by simpa using hends q p (hq p hmem))]
        exact ih hqs hmem

/-- At the last node, a road that starts there makes the loop read on. -/
theorem pushRoads_last (ps roads : List Road) :
    pushRoads node none ps roads = if ∃ p ∈ ps, p.source = node then none else some roads := by
  induction ps generalizing roads with
  | nil => simp [pushRoads]
  | cons p ps ih =>
      rw [pushRoads, leads]
      by_cases hsource : node = p.source
      · simp [hsource]
      · simp [hsource, Ne.symm hsource, ih]

/-- The roads of a path are found, unless one starts at its end. -/
theorem pushPath_eq (hdistinct : Distinct allPoints) (hne : nodes ≠ [])
    (hroute : IsRoute allPoints nodes roads) (found : List Road) :
    (Leaves allPoints nodes → pushPath allPoints nodes found = none) ∧
      (¬ Leaves allPoints nodes → pushPath allPoints nodes found = some (found ++ roads)) := by
  induction nodes generalizing roads found with
  | nil => exact absurd rfl hne
  | cons node nodes ih =>
      cases nodes with
      | nil =>
          obtain rfl : roads = [] := List.forall₂_nil_left_iff.mp hroute
          have hleaves : Leaves allPoints [node] ↔ ∃ p ∈ allPoints, p.source = node := by
            simp [Leaves, eq_comm]
          rw [hleaves, pushPath, List.head?_nil, pushRoads_last]
          constructor
          · intro hlast
            rw [if_pos hlast, Option.bind_none]
          · intro hlast
            rw [if_neg hlast, Option.bind_some, pushPath, List.append_nil]
      | cons next nodes =>
          obtain ⟨p, roads', ⟨hp, rfl, rfl⟩, hroute', rfl⟩ :=
            List.forall₂_cons_left_iff.mp hroute
          have hleaves : Leaves allPoints (p.source :: p.destination :: nodes) ↔
              Leaves allPoints (p.destination :: nodes) := by
            simp [Leaves, List.getLast?_cons_cons]
          obtain ⟨hread, hroads⟩ := ih (List.cons_ne_nil _ _) hroute' (found ++ [p])
          rw [hleaves, pushPath, List.head?_cons, pushRoads_eq, filter_of_distinct hdistinct hp,
            Option.bind_some]
          refine ⟨hread, fun hlast => (hroads hlast).trans ?_⟩
          rw [List.append_assoc, List.singleton_append]

/-! ### All paths -/

/-- `pathsInf` for paths given with their nodes and the row of their car count. -/
def rows (trips : List (List String × List String)) : List (List String) :=
  trips.flatMap fun t => [t.1, t.2]

/-- Every path becomes the list of its roads, with its car count and number, and
nothing behind the end of a node sequence is read. -/
def Expanded (allPoints : List Road) (trips : List (List String × List String)) : Prop :=
  ∃ paths, setPaths (rows trips) [] allPoints = some paths ∧ paths.length = trips.length ∧
    ∀ i t, trips[i]? = some t → ∃ p, paths[i]? = some p ∧ IsRoute allPoints t.1 p.pathSequence ∧
      p.numOfCarsInSource = carCount t.2 ∧ p.id = some (i + 1)

variable {trips : List (List String × List String)} {sequences : List (List Road)}

theorem newPaths_cons (t : List String × List String) (paths : List Path) :
    newPaths allPoints (rows (t :: trips)) paths = (pushPath allPoints t.1 []).bind fun s =>
      newPaths allPoints (rows trips) (paths ++ [.new s]) := rfl

/-- A path that cannot be read stops the loop. -/
theorem newPaths_none (h : ∃ t ∈ trips, pushPath allPoints t.1 [] = none) (paths : List Path) :
    newPaths allPoints (rows trips) paths = none := by
  induction trips generalizing paths with
  | nil =>
      obtain ⟨t, ht, -⟩ := h
      cases ht
  | cons u trips ih =>
      obtain ⟨t, ht, hnone⟩ := h
      rcases List.mem_cons.mp ht with rfl | ht
      · rw [newPaths_cons, hnone, Option.bind_none]
      · rw [newPaths_cons]
        cases pushPath allPoints u.1 [] with
        | none => rfl
        | some s => exact ih ⟨t, ht, hnone⟩ _

theorem newPaths_some
    (h : List.Forall₂ (fun t s => pushPath allPoints t.1 [] = some s) trips sequences)
    (paths : List Path) :
    newPaths allPoints (rows trips) paths =
      some (paths ++ sequences.map .new) := by
  induction h generalizing paths with
  | nil => simp [rows, newPaths]
  | @cons t s trips sequences hs _ ih =>
      rw [newPaths_cons, hs, Option.bind_some, ih, List.append_assoc]
      rfl

/-- The second loop gives the paths left, from `index` on, their counts and
numbers. -/
theorem setCounts_spec (hcount : ∀ t ∈ trips, ∃ n, carCount t.2 = some n)
    (hlen : sequences.length = trips.length) (done : List Path) :
    ∃ new : List Path, setCounts (rows trips) done.length
        (done ++ sequences.map .new) = some (done ++ new) ∧
      new.length = trips.length ∧ ∀ i t s, trips[i]? = some t → sequences[i]? = some s →
        new[i]? = some (Path.mk s (carCount t.2) (some (done.length + i + 1))) := by
  induction trips generalizing sequences done with
  | nil =>
      obtain rfl : sequences = [] := List.length_eq_zero_iff.mp hlen
      exact ⟨[], rfl, rfl, by simp⟩
  | cons t trips ih =>
      obtain ⟨s, sequences, rfl⟩ := List.exists_cons_of_length_eq_add_one hlen
      obtain ⟨n, hn⟩ := hcount t List.mem_cons_self
      obtain ⟨new, hrun, hnewlen, hnew⟩ := ih (fun u hu => hcount u (List.mem_cons_of_mem t hu))
        (Nat.succ.inj hlen) (done ++ [Path.mk s (some n) (some (done.length + 1))])
      refine ⟨Path.mk s (some n) (some (done.length + 1)) :: new, ?_, by simp [hnewlen], ?_⟩
      · have hrows : rows (t :: trips) = t.1 :: t.2 :: rows trips := rfl
        have hindex : (done ++ Path.new s ::
            sequences.map .new)[done.length]? = some (Path.new s) := by
          simp
        rw [List.map_cons, hrows, setCounts, hn, hindex]
        simp only [Option.bind_eq_bind, Option.bind_some, List.set_append_right, Nat.le_refl,
          Nat.sub_self, List.set_cons_zero]
        simpa [Path.new] using hrun
      · intro i u r hu hr
        cases i with
        | zero =>
            obtain rfl : t = u := by simpa using hu
            obtain rfl : s = r := by simpa using hr
            simp [hn]
        | succ i =>
            have hi := hnew i u r (by simpa using hu) (by simpa using hr)
            rw [List.getElem?_cons_succ, hi, List.length_append, List.length_singleton]
            congr 3
            omega

theorem exists_forall₂ {α β : Type} {R : α → β → Prop} {l : List α} (h : ∀ x ∈ l, ∃ y, R x y) :
    ∃ m, List.Forall₂ R l m := by
  induction l with
  | nil => exact ⟨[], .nil⟩
  | cons x l ih =>
      obtain ⟨y, hy⟩ := h x List.mem_cons_self
      obtain ⟨m, hm⟩ := ih fun z hz => h z (List.mem_cons_of_mem x hz)
      exact ⟨y :: m, .cons hy hm⟩

/-- **The paths.** On a map whose roads have different ends, and for paths along
its roads, every path becomes the list of its roads iff no road of the map starts
where a path ends. -/
theorem setPaths_iff (allPoints : List Road) (trips : List (List String × List String))
    (hdistinct : Distinct allPoints) (hlen : ∀ t ∈ trips, 2 ≤ t.1.length)
    (hroads : ∀ t ∈ trips, ∀ ab ∈ t.1.zip t.1.tail,
      ∃ p ∈ allPoints, p.source = ab.1 ∧ p.destination = ab.2)
    (hcount : ∀ t ∈ trips, ∃ n, carCount t.2 = some n) :
    Expanded allPoints trips ↔ ∀ t ∈ trips, ¬ Leaves allPoints t.1 := by
  have hpath : ∀ t ∈ trips, ∃ roads, IsRoute allPoints t.1 roads ∧
      (Leaves allPoints t.1 → pushPath allPoints t.1 [] = none) ∧
      (¬ Leaves allPoints t.1 → pushPath allPoints t.1 [] = some roads) := by
    intro t ht
    have hne : t.1 ≠ [] := List.length_pos_iff.mp (Nat.lt_of_lt_of_le Nat.two_pos (hlen t ht))
    obtain ⟨roads, hroute⟩ : ∃ roads, IsRoute allPoints t.1 roads := exists_forall₂ (hroads t ht)
    exact ⟨roads, hroute, pushPath_eq hdistinct hne hroute []⟩
  constructor
  · intro h t ht hleaves
    obtain ⟨paths, hrun, -⟩ := h
    obtain ⟨roads, -, hread, -⟩ := hpath t ht
    rw [setPaths, newPaths_none ⟨t, ht, hread hleaves⟩] at hrun
    cases hrun
  · intro h
    obtain ⟨sequences, hsequences⟩ : ∃ sequences, List.Forall₂ (fun t s =>
        IsRoute allPoints t.1 s ∧ pushPath allPoints t.1 [] = some s) trips sequences := by
      refine exists_forall₂ fun t ht => ?_
      obtain ⟨roads, hroute, -, hfound⟩ := hpath t ht
      exact ⟨roads, hroute, hfound (h t ht)⟩
    have hsize : sequences.length = trips.length := hsequences.length_eq.symm
    obtain ⟨paths, hrun, hpaths, hall⟩ := setCounts_spec hcount hsize []
    refine ⟨paths, ?_, hpaths, fun i t ht => ?_⟩
    · rw [setPaths, newPaths_some (hsequences.imp fun _ _ h => h.2), Option.bind_some]
      exact hrun
    · have hi : i < sequences.length := hsize ▸ (List.getElem?_eq_some_iff.mp ht).1
      have hs : sequences[i]? = some sequences[i] := List.getElem?_eq_getElem hi
      refine ⟨_, hall i t _ ht hs, ?_, rfl, by simp⟩
      obtain ⟨hi', rfl⟩ := List.getElem?_eq_some_iff.mp ht
      exact (hsequences.get hi' hi).1

/-- The sample map. -/
def sampleMap : List Road :=
  [⟨⟨"A", "B"⟩, 4⟩, ⟨⟨"B", "C"⟩, 1⟩, ⟨⟨"C", "D"⟩, 2⟩, ⟨⟨"E", "B"⟩, 1⟩, ⟨⟨"C", "F"⟩, 3⟩]

/-- The paths of the sample map. -/
def samplePaths : List (List String × List String) :=
  [(["A", "B", "C", "D"], ["3"]), (["E", "B", "C", "F"], ["4"])]

theorem setPaths_iff_sample : Expanded sampleMap samplePaths :=
  (setPaths_iff sampleMap samplePaths (by unfold Distinct; decide +kernel) (by decide +kernel)
    (by decide +kernel) (by
      intro t ht
      rcases List.mem_cons.mp ht with rfl | ht
      · exact ⟨3, by decide +kernel⟩
      · obtain rfl := List.mem_singleton.mp ht
        exact ⟨4, by decide +kernel⟩)).mpr (by unfold Leaves; decide +kernel)

/-- A road there and one back. -/
theorem setPaths_reads_past : ¬ ∀ (allPoints : List Road)
    (trips : List (List String × List String)), Distinct allPoints →
    (∀ t ∈ trips, 2 ≤ t.1.length) →
    (∀ t ∈ trips, ∀ ab ∈ t.1.zip t.1.tail,
      ∃ p ∈ allPoints, p.source = ab.1 ∧ p.destination = ab.2) →
    (∀ t ∈ trips, ∃ n, carCount t.2 = some n) → Expanded allPoints trips := by
  intro h
  obtain ⟨paths, hrun, -⟩ := h [⟨⟨"A", "B"⟩, 1⟩, ⟨⟨"B", "A"⟩, 1⟩] [(["A", "B"], ["1"])]
    (by unfold Distinct; decide +kernel) (by decide +kernel) (by decide +kernel)
    (fun t ht => ⟨1, by obtain rfl := List.mem_singleton.mp ht; decide +kernel⟩)
  have hnone : setPaths (rows [(["A", "B"], ["1"])]) [] [⟨⟨"A", "B"⟩, 1⟩, ⟨⟨"B", "A"⟩, 1⟩] = none := by
    decide +kernel
  rw [hnone] at hrun
  cases hrun

end OsCourse.Monitoring
