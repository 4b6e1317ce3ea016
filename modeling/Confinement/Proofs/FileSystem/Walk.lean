import Confinement.Proofs.FileSystem.View

/-!
# Walks

`Walk fs n here steps l` holds when the steps lead from `here` to `l` and `n`
links are followed on the way.  It is the route of a path without its budget:
a route succeeds exactly when there is such a walk within the budget
(`route_of_walk`, `exists_walk_of_route`).

A walk can be cut anywhere and leads to one place only.  It outlives every
change of the tree that keeps what is there (`Walk.mono`), and a `.` in it
only asks whether a directory may be searched (`Walk.pad`, `Walk.unpad`).
-/

namespace Confinement

namespace FileSystem

variable {fs fs' : FileSystem} {p : Path} {follow : Bool} {n m b : Nat} {here l d : Location}
  {step name : Bytes} {rest xs ys : List Bytes} {node : Node} {face : Face}

/-- A directory that this process may search. -/
def Searchable (fs : FileSystem) (l : Location) : Prop :=
  ∃ mode, fs.tree.look l = some (.directory mode) ∧ fs.permits .search mode

/-- A walk goes from the directory `here` to what `name` names there. -/
structure Enters (fs : FileSystem) (here : Location) (name : Bytes) : Prop where
  searchable : fs.Searchable here
  ne_dot : name ≠ Path.dot
  ne_dotdot : name ≠ Path.dotdot
  length_le : name.length ≤ nameLimit

/-- The directory above another; the root has none above it. -/
def above (fs : FileSystem) (here : Location) : Location :=
  if here = fs.root then here else here.dropLast

/-- Where the target of a link is walked from. -/
def turn (fs : FileSystem) (here : Location) (target : Path) : Location :=
  if target.isAbsolute then fs.root else here

theorem Searchable.exists_directory_above (h : fs.Searchable d) :
    ∃ mode, fs.tree.look (fs.above d) = some (.directory mode) := by
  obtain ⟨mode, hlook, -⟩ := h
  unfold above
  split
  · exact ⟨mode, hlook⟩
  · rcases List.eq_nil_or_concat' d with rfl | ⟨front, last, rfl⟩
    · exact ⟨mode, hlook⟩
    · rw [List.dropLast_concat]
      exact Node.exists_directory_of_look_concat (by rw [hlook]; rfl)

/-- The steps lead from a directory to a location over `n` links. -/
inductive Walk (fs : FileSystem) : Nat → Location → List Bytes → Location → Prop
  | done (here : Location) : Walk fs 0 here [] here
  | stay {n : Nat} {here : Location} {rest : List Bytes} {l : Location}
      (searchable : fs.Searchable here) (tail : Walk fs n here rest l) :
      Walk fs n here (Path.dot :: rest) l
  | up {n : Nat} {here : Location} {rest : List Bytes} {l : Location}
      (searchable : fs.Searchable here) (tail : Walk fs n (fs.above here) rest l) :
      Walk fs n here (Path.dotdot :: rest) l
  | down {n : Nat} {here : Location} {name : Bytes} {rest : List Bytes} {l : Location} {face : Face}
      (enters : fs.Enters here name)
      (look : fs.tree.look (here ++ [name]) = some face) (noLink : ∀ target, face ≠ .link target)
      (tail : Walk fs n (here ++ [name]) rest l) : Walk fs n here (name :: rest) l
  | follow {n : Nat} {here : Location} {name : Bytes} {rest : List Bytes} {l : Location}
      {target : Path} (enters : fs.Enters here name)
      (look : fs.tree.look (here ++ [name]) = some (.link target)) (ne_nil : target.bytes ≠ [])
      (tail : Walk fs n (fs.turn here target) (stepsOf target ++ rest) l) :
      Walk fs (n + 1) here (name :: rest) l

/-! ## Legs -/

/-- What the first step of a leg comes to. -/
inductive Onward (fs : FileSystem) (follow : Bool) (here : Location) :
    Bytes → List Bytes → Leg → Prop
  | failed {step : Bytes} {rest : List Bytes} (e : Errno) :
      Onward fs follow here step rest (.failed e)
  | stay {rest : List Bytes} (searchable : fs.Searchable here) :
      Onward fs follow here Path.dot rest (fs.leg follow here rest)
  | up {rest : List Bytes} (searchable : fs.Searchable here) :
      Onward fs follow here Path.dotdot rest (fs.leg follow (fs.above here) rest)
  | down {name : Bytes} {rest : List Bytes} {face : Face} (enters : fs.Enters here name)
      (look : fs.tree.look (here ++ [name]) = some face) (noLink : ∀ target, face ≠ .link target) :
      Onward fs follow here name rest (fs.leg follow (here ++ [name]) rest)
  | link {name : Bytes} {rest : List Bytes} {target : Path} (enters : fs.Enters here name)
      (look : fs.tree.look (here ++ [name]) = some (.link target))
      (follows : rest ≠ [] ∨ follow = true) :
      Onward fs follow here name rest (.turned here target rest)
  | last {name : Bytes} {target : Path} (enters : fs.Enters here name)
      (look : fs.tree.look (here ++ [name]) = some (.link target)) (stops : follow = false) :
      Onward fs follow here name [] (.arrived (here ++ [name]))
  | free {name : Bytes} (enters : fs.Enters here name)
      (look : fs.tree.look (here ++ [name]) = none) :
      Onward fs follow here name [] (.free here name)

theorem leg_of_dot (h : fs.Searchable here) :
    fs.leg follow here (Path.dot :: rest) = fs.leg follow here rest := by
  obtain ⟨mode, hlook, hpermits⟩ := h
  obtain ⟨es, hat⟩ := Node.look_eq_directory_iff.mp hlook
  rw [leg, hat]
  simp [hpermits, Path.dot]

theorem leg_of_dotdot (h : fs.Searchable here) :
    fs.leg follow here (Path.dotdot :: rest) = fs.leg follow (fs.above here) rest := by
  obtain ⟨mode, hlook, hpermits⟩ := h
  obtain ⟨es, hat⟩ := Node.look_eq_directory_iff.mp hlook
  rw [leg, hat]
  simp [hpermits, Path.dotdot, above]

theorem leg_of_enters (h : fs.Enters here name) :
    fs.leg follow here (name :: rest) =
      match fs.tree.at? (here ++ [name]) with
      | none => if rest.isEmpty then .free here name else .failed .noEntry
      | some (.link target) =>
        if rest.isEmpty && !follow then .arrived (here ++ [name]) else .turned here target rest
      | some _ => fs.leg follow (here ++ [name]) rest := by
  obtain ⟨⟨mode, hlook, hpermits⟩, hdot, hdotdot, hlength⟩ := h
  obtain ⟨es, hat⟩ := Node.look_eq_directory_iff.mp hlook
  have hdot : name ≠ [0x2E] := hdot
  have hdotdot : name ≠ [0x2E, 0x2E] := hdotdot
  rw [leg, hat]
  have hlookup := Node.lookup_of_at? hat name
  cases hentry : fs.tree.at? (here ++ [name]) with
  | none => simp [hpermits, hdot, hdotdot, Nat.not_lt.mpr hlength, hlookup, hentry]
  | some node =>
      cases node <;> simp [hpermits, hdot, hdotdot, Nat.not_lt.mpr hlength, hlookup, hentry]

theorem leg_of_look (h : fs.Enters here name) (hlook : fs.tree.look (here ++ [name]) = some face)
    (hface : ∀ target, face ≠ .link target) :
    fs.leg follow here (name :: rest) = fs.leg follow (here ++ [name]) rest := by
  obtain ⟨node, hat, hnode⟩ := Option.map_eq_some_iff.mp hlook
  rw [leg_of_enters h, hat]
  cases node with
  | link target => exact absurd hnode.symm (hface target)
  | file | pipe | directory => rfl

theorem leg_of_look_link {target : Path} (h : fs.Enters here name)
    (hlook : fs.tree.look (here ++ [name]) = some (.link target))
    (hfollows : rest ≠ [] ∨ follow = true) :
    fs.leg follow here (name :: rest) = .turned here target rest := by
  obtain ⟨node, hat, hnode⟩ := Option.map_eq_some_iff.mp hlook
  have hgoes : (rest.isEmpty && !follow) = false := by
    rcases hfollows with hrest | hfollow
    · simp [hrest]
    · simp [hfollow]
  rw [leg_of_enters h, hat]
  cases node <;> simp [Node.face] at hnode
  simp only [hgoes, Bool.false_eq_true, if_false, hnode]

theorem leg_of_look_none (h : fs.Enters here name)
    (hlook : fs.tree.look (here ++ [name]) = none) :
    fs.leg follow here (name :: rest) =
      if rest.isEmpty then .free here name else .failed .noEntry := by
  rw [leg_of_enters h, Option.map_eq_none_iff.mp hlook]

/-- A link in last place is what a leg arrives at, unless it is followed. -/
theorem leg_of_look_last (h : fs.Enters here name)
    (hlook : (fs.tree.look (here ++ [name])).isSome) :
    fs.leg false here [name] = .arrived (here ++ [name]) := by
  rw [Node.look, Option.isSome_map] at hlook
  obtain ⟨node, hat⟩ := Option.isSome_iff_exists.mp hlook
  rw [leg_of_enters h, hat]
  cases node <;> simp [leg]

/-- A step fails whatever comes of links, asks about the directory it stands
in, goes up, or enters that directory. -/
theorem leg_cons_cases (fs : FileSystem) (here : Location) (step : Bytes) (rest : List Bytes) :
    (∃ e, ∀ follow, fs.leg follow here (step :: rest) = .failed e) ∨
      (fs.Searchable here ∧ step = Path.dot) ∨ (fs.Searchable here ∧ step = Path.dotdot) ∨
        fs.Enters here step := by
  -- Rights are asked for first, then what the step says, then how long it is.
  by_cases hs : fs.Searchable here
  · by_cases hdot : step = Path.dot
    · exact Or.inr (Or.inl ⟨hs, hdot⟩)
    by_cases hdotdot : step = Path.dotdot
    · exact Or.inr (Or.inr (Or.inl ⟨hs, hdotdot⟩))
    by_cases hlength : step.length ≤ nameLimit
    · exact Or.inr (Or.inr (Or.inr ⟨hs, hdot, hdotdot, hlength⟩))
    · refine Or.inl ⟨.nameTooLong, fun follow => ?_⟩
      obtain ⟨mode, hlook, hpermits⟩ := hs
      obtain ⟨es, hat⟩ := Node.look_eq_directory_iff.mp hlook
      have hdot : step ≠ [0x2E] := hdot
      have hdotdot : step ≠ [0x2E, 0x2E] := hdotdot
      rw [leg, hat]
      simp only [hpermits, hdot, hdotdot, Nat.lt_of_not_le hlength, if_false, if_true,
        Bool.not_true, Bool.false_eq_true]
  · apply Or.inl
    -- There is no node here, or no directory, or one that may not be searched.
    cases hat : fs.tree.at? here with
    | none => exact ⟨.noEntry, fun follow => by rw [leg, hat]⟩
    | some node =>
        cases node with
        | directory mode es =>
            refine ⟨.accessDenied, fun follow => ?_⟩
            have hpermits : ¬ fs.permits .search mode :=
              fun hp => hs ⟨mode, Node.look_eq_directory_iff.mpr ⟨es, hat⟩, hp⟩
            rw [leg, hat]
            simp only [hpermits, Bool.not_false, if_true]
        | file | link | pipe => exact ⟨.notDirectory, fun follow => by rw [leg, hat]⟩

theorem onward (fs : FileSystem) (follow : Bool) (here : Location) (step : Bytes)
    (rest : List Bytes) : fs.Onward follow here step rest (fs.leg follow here (step :: rest)) := by
  rcases fs.leg_cons_cases here step rest with ⟨e, he⟩ | ⟨hs, rfl⟩ | ⟨hs, rfl⟩ | henters
  · rw [he follow]
    exact .failed e
  · rw [leg_of_dot hs]
    exact .stay hs
  · rw [leg_of_dotdot hs]
    exact .up hs
  · rw [leg_of_enters henters]
    cases hat : fs.tree.at? (here ++ [step]) with
    | none =>
        have hlook : fs.tree.look (here ++ [step]) = none := by rw [Node.look, hat]; rfl
        cases rest with
        | nil => exact .free henters hlook
        | cons => exact .failed _
    | some node =>
        have hlook : fs.tree.look (here ++ [step]) = some node.face := by rw [Node.look, hat]; rfl
        cases node with
        | link target =>
            cases rest with
            | cons => exact .link henters hlook (Or.inl (List.cons_ne_nil _ _))
            | nil =>
                cases follow with
                | true => exact .link henters hlook (Or.inr rfl)
                | false => exact .last henters hlook rfl
        | file | pipe | directory => exact .down henters hlook (by simp [Node.face])

/-! ## Routes -/

theorem route_of_turned {target : Path} (hleg : fs.leg follow here xs = .turned here target rest)
    (hne : target.bytes ≠ []) (b : Nat) : fs.route follow (b + 1) here xs =
      fs.route follow b (fs.turn here target) (stepsOf target ++ rest) := by
  have hempty : target.isEmpty = false := by simpa [Path.isEmpty] using hne
  rw [route, hleg]
  simp only [hempty, Bool.false_eq_true, if_false]
  rfl

/-- The rest of a path is walked from where its first steps lead. -/
theorem route_of_walk (h : fs.Walk n here xs l) (hb : n ≤ b) (hrest : rest ≠ [] ∨ follow = true) :
    fs.route follow b here (xs ++ rest) = fs.route follow (b - n) l rest := by
  induction h generalizing b with
  | done here => rfl
  | stay searchable tail ih =>
      rw [List.cons_append, route_congr (leg_of_dot searchable)]
      exact ih hb
  | up searchable tail ih =>
      rw [List.cons_append, route_congr (leg_of_dotdot searchable)]
      exact ih hb
  | down enters look noLink tail ih =>
      rw [List.cons_append, route_congr (leg_of_look enters look noLink)]
      exact ih hb
  | @follow n here name steps l target enters look ne_nil tail ih =>
      have hgoes : steps ++ rest ≠ [] ∨ follow = true :=
        hrest.imp_left fun hrest hnil => hrest (List.append_eq_nil_iff.mp hnil).2
      -- The walk has counted this link, so the budget is not spent yet.
      obtain ⟨b, rfl⟩ : ∃ b', b = b' + 1 := ⟨b - 1, by omega⟩
      rw [List.cons_append, route_of_turned (leg_of_look_link enters look hgoes) ne_nil,
        ← List.append_assoc, Nat.add_sub_add_right]
      exact ih (by omega)

theorem route_nil_eq_ok (h : fs.route follow b here [] = .ok (.taken l node)) :
    here = l ∧ fs.tree.at? l = some node := by
  rw [route, leg] at h
  cases hat : fs.tree.at? here with
  | none => simp [hat] at h
  | some found =>
      simp only [hat, Except.ok.injEq, Spot.taken.injEq] at h
      obtain ⟨rfl, rfl⟩ := h
      exact ⟨rfl, hat⟩

/-- A route whose leg stops at a link goes on with the target. -/
theorem route_turned {target : Path} {spot : Spot}
    (hleg : fs.leg follow here xs = .turned here target rest)
    (h : fs.route follow b here xs = .ok spot) :
    ∃ b', b = b' + 1 ∧ target.bytes ≠ [] ∧
      fs.route follow b' (fs.turn here target) (stepsOf target ++ rest) = .ok spot := by
  rw [route, hleg] at h
  cases b with
  | zero => cases h
  | succ b =>
      by_cases hempty : target.isEmpty
      · simp [hempty] at h
      · simp only [hempty, Bool.false_eq_true, if_false] at h
        exact ⟨b, rfl, by simpa [Path.isEmpty] using hempty, h⟩

/-- A free place is a missing entry of a directory that may be entered. -/
theorem enters_of_route_free (h : fs.route follow b here xs = .ok (.free d name)) :
    fs.Enters d name ∧ fs.tree.look (d ++ [name]) = none := by
  -- A link adds the steps of its target and takes one off the budget, so the outer induction is on
  -- the budget and only the inner one on the steps.
  induction b using Nat.strongRecOn generalizing here xs with
  | ind b ihb =>
      induction xs generalizing here with
      | nil =>
          rw [route, leg] at h
          cases hat : fs.tree.at? here <;> simp [hat] at h
      | cons step rest ih =>
          have hon := onward fs follow here step rest
          generalize hleg : fs.leg follow here (step :: rest) = leg at hon
          cases hon with
          | failed e =>
              rw [route_of_failed hleg] at h
              cases h
          | stay searchable =>
              rw [route_congr (leg_of_dot searchable)] at h
              exact ih h
          | up searchable =>
              rw [route_congr (leg_of_dotdot searchable)] at h
              exact ih h
          | down enters look noLink =>
              rw [route_congr hleg] at h
              exact ih h
          | link enters look follows =>
              obtain ⟨b, rfl, -, h⟩ := route_turned hleg h
              exact ihb b (Nat.lt_succ_self b) h
          | last enters look stops =>
              obtain ⟨found, hat, -⟩ := Option.map_eq_some_iff.mp look
              rw [route_of_arrived hleg hat] at h
              cases h
          | free enters look =>
              rw [route_of_free hleg] at h
              cases h
              exact ⟨enters, look⟩

/-- A route that ends at a node is a walk within its budget. -/
theorem exists_walk_of_route (h : fs.route true b here xs = .ok (.taken l node)) :
    ∃ n ≤ b, fs.Walk n here xs l ∧ fs.tree.at? l = some node := by
  induction b using Nat.strongRecOn generalizing here xs with
  | ind b ihb =>
      induction xs generalizing here with
      | nil =>
          obtain ⟨rfl, hat⟩ := route_nil_eq_ok h
          exact ⟨0, Nat.zero_le b, .done _, hat⟩
      | cons step rest ih =>
          have hon := onward fs true here step rest
          generalize hleg : fs.leg true here (step :: rest) = leg at hon
          cases hon with
          | failed e =>
              rw [route, hleg] at h
              cases h
          | stay searchable =>
              rw [route_congr (leg_of_dot searchable)] at h
              obtain ⟨n, hn, hwalk, hat⟩ := ih h
              exact ⟨n, hn, .stay searchable hwalk, hat⟩
          | up searchable =>
              rw [route_congr (leg_of_dotdot searchable)] at h
              obtain ⟨n, hn, hwalk, hat⟩ := ih h
              exact ⟨n, hn, .up searchable hwalk, hat⟩
          | down enters look noLink =>
              rw [route_congr hleg] at h
              obtain ⟨n, hn, hwalk, hat⟩ := ih h
              exact ⟨n, hn, .down enters look noLink hwalk, hat⟩
          | link enters look follows =>
              obtain ⟨b', rfl, hne, hroute⟩ := route_turned hleg h
              obtain ⟨n, hn, hwalk, hat⟩ := ihb b' (Nat.lt_succ_self b') hroute
              exact ⟨n + 1, Nat.succ_le_succ hn, .follow enters look hne hwalk, hat⟩
          | last enters look stops => cases stops
          | free enters look =>
              rw [route, hleg] at h
              cases h

/-- A leg that stops at a link in last place ends as one that follows it,
unless there is one. -/
theorem leg_false_eq_or (fs : FileSystem) (here : Location) (xs : List Bytes) :
    fs.leg false here xs = fs.leg true here xs ∨
      ∃ l target, fs.leg false here xs = .arrived l ∧ fs.tree.at? l = some (.link target) := by
  induction xs generalizing here with
  | nil => exact Or.inl (by rw [leg, leg])
  | cons step rest ih =>
      rcases fs.leg_cons_cases here step rest with ⟨e, he⟩ | ⟨hs, rfl⟩ | ⟨hs, rfl⟩ | henters
      · exact Or.inl (by rw [he, he])
      · rw [leg_of_dot hs, leg_of_dot hs]
        exact ih here
      · rw [leg_of_dotdot hs, leg_of_dotdot hs]
        exact ih (fs.above here)
      · rw [leg_of_enters henters, leg_of_enters henters]
        cases hat : fs.tree.at? (here ++ [step]) with
        | none => exact Or.inl rfl
        | some found =>
            cases found with
            -- The two go apart only at a link in last place.
            | link target =>
                cases rest with
                | nil => exact Or.inr ⟨_, target, rfl, hat⟩
                | cons => exact Or.inl rfl
            | file | pipe | directory => exact ih _

theorem route_false_eq_or (fs : FileSystem) (b : Nat) (here : Location) (xs : List Bytes) :
    fs.route false b here xs = fs.route true b here xs ∨
      ∃ l target, fs.route false b here xs = .ok (.taken l (.link target)) := by
  induction b using Nat.strongRecOn generalizing here xs with
  | ind b ih =>
      rcases fs.leg_false_eq_or here xs with hleg | ⟨l, target, hleg, hat⟩
      · rw [route, route, ← hleg]
        cases fs.leg false here xs with
        | arrived | free | failed => exact Or.inl rfl
        | turned directory target rest =>
            cases b with
            | zero => exact Or.inl rfl
            | succ b =>
                by_cases hempty : target.isEmpty
                · exact Or.inl (by simp only [hempty, if_true])
                · simp only [hempty, Bool.false_eq_true, if_false]
                  -- Links on the way are followed either way, and the comparison starts again
                  -- behind them.
                  exact ih b (Nat.lt_succ_self b) _ _
      · refine Or.inr ⟨l, target, ?_⟩
        rw [route, hleg]
        simp only [hat]

/-! ## Cutting and joining walks -/

namespace Walk

theorem append (h : fs.Walk n here xs d) (h' : fs.Walk m d ys l) :
    fs.Walk (n + m) here (xs ++ ys) l := by
  induction h with
  | done here => exact (Nat.zero_add m).symm ▸ h'
  | stay searchable tail ih => exact .stay searchable (ih h')
  | up searchable tail ih => exact .up searchable (ih h')
  | down enters look noLink tail ih => exact .down enters look noLink (ih h')
  | @follow _ _ _ _ _ target enters look ne_nil tail ih =>
      have htail := ih h'
      rw [List.append_assoc] at htail
      rw [Nat.add_right_comm]
      exact .follow enters look ne_nil htail

/-- A walk can be cut anywhere. -/
theorem split (h : fs.Walk n here (xs ++ ys) l) :
    ∃ n₁ n₂ d, n = n₁ + n₂ ∧ fs.Walk n₁ here xs d ∧ fs.Walk n₂ d ys l := by
  generalize hzs : xs ++ ys = zs at h
  induction h generalizing xs with
  | done here =>
      obtain ⟨rfl, rfl⟩ := List.append_eq_nil_iff.mp hzs
      exact ⟨0, 0, here, rfl, .done here, .done here⟩
  | stay searchable tail ih =>
      rcases List.append_eq_cons_iff.mp hzs with ⟨rfl, rfl⟩ | ⟨xs, rfl, rfl⟩
      · exact ⟨0, _, _, (Nat.zero_add _).symm, .done _, .stay searchable tail⟩
      · obtain ⟨n₁, n₂, d, rfl, hleft, hright⟩ := ih rfl
        exact ⟨n₁, n₂, d, rfl, .stay searchable hleft, hright⟩
  | up searchable tail ih =>
      rcases List.append_eq_cons_iff.mp hzs with ⟨rfl, rfl⟩ | ⟨xs, rfl, rfl⟩
      · exact ⟨0, _, _, (Nat.zero_add _).symm, .done _, .up searchable tail⟩
      · obtain ⟨n₁, n₂, d, rfl, hleft, hright⟩ := ih rfl
        exact ⟨n₁, n₂, d, rfl, .up searchable hleft, hright⟩
  | down enters look noLink tail ih =>
      rcases List.append_eq_cons_iff.mp hzs with ⟨rfl, rfl⟩ | ⟨xs, rfl, rfl⟩
      · exact ⟨0, _, _, (Nat.zero_add _).symm, .done _, .down enters look noLink tail⟩
      · obtain ⟨n₁, n₂, d, rfl, hleft, hright⟩ := ih rfl
        exact ⟨n₁, n₂, d, rfl, .down enters look noLink hleft, hright⟩
  | @follow _ _ _ _ _ target enters look ne_nil tail ih =>
      rcases List.append_eq_cons_iff.mp hzs with ⟨rfl, rfl⟩ | ⟨xs, rfl, rfl⟩
      · exact ⟨0, _, _, (Nat.zero_add _).symm, .done _, .follow enters look ne_nil tail⟩
      · -- The steps of the target are all taken before the cut.
        obtain ⟨n₁, n₂, d, rfl, hleft, hright⟩ := ih (List.append_assoc (stepsOf target) xs ys)
        exact ⟨n₁ + 1, n₂, d, Nat.add_right_comm n₁ n₂ 1, .follow enters look ne_nil hleft, hright⟩

/-- A walk leads to one place only. -/
theorem unique (h : fs.Walk n here xs l) (h' : fs.Walk m here xs d) : n = m ∧ l = d := by
  -- What is found at a place decides by which rule a walk goes on.
  induction h generalizing m with
  | done here =>
      cases h'
      exact ⟨rfl, rfl⟩
  | stay searchable tail ih =>
      cases h' with
      | stay _ tail' => exact ih tail'
      | down enters | follow enters => exact absurd rfl enters.ne_dot
  | up searchable tail ih =>
      cases h' with
      | up _ tail' => exact ih tail'
      | down enters | follow enters => exact absurd rfl enters.ne_dotdot
  | down enters look noLink tail ih =>
      cases h' with
      | stay => exact absurd rfl enters.ne_dot
      | up => exact absurd rfl enters.ne_dotdot
      | down _ _ _ tail' => exact ih tail'
      | follow _ look' =>
          rw [look] at look'
          exact absurd (Option.some.inj look') (noLink _)
  | follow enters look ne_nil tail ih =>
      cases h' with
      | stay => exact absurd rfl enters.ne_dot
      | up => exact absurd rfl enters.ne_dotdot
      | down _ look' noLink _ =>
          rw [look] at look'
          exact absurd (Option.some.inj look').symm (noLink _)
      | follow _ look' _ tail' =>
          rw [look] at look'
          obtain rfl : _ = _ := Face.link.inj (Option.some.inj look')
          obtain ⟨rfl, rfl⟩ := ih tail'
          exact ⟨rfl, rfl⟩

/-- A step of a walk is `.` or `..`, or names an entry that the walk enters. -/
theorem exists_enters_of_mem (h : fs.Walk n here xs l) (hstep : step ∈ xs) :
    step = Path.dot ∨ step = Path.dotdot ∨
      ∃ d, fs.Enters d step ∧ (fs.tree.look (d ++ [step])).isSome := by
  induction h with
  | done here => cases hstep
  | stay searchable tail ih =>
      rcases List.mem_cons.mp hstep with rfl | hstep
      · exact Or.inl rfl
      · exact ih hstep
  | up searchable tail ih =>
      rcases List.mem_cons.mp hstep with rfl | hstep
      · exact Or.inr (Or.inl rfl)
      · exact ih hstep
  | down enters look noLink tail ih =>
      rcases List.mem_cons.mp hstep with rfl | hstep
      · exact Or.inr (Or.inr ⟨_, enters, by rw [look]; rfl⟩)
      · exact ih hstep
  | follow enters look ne_nil tail ih =>
      rcases List.mem_cons.mp hstep with rfl | hstep
      · exact Or.inr (Or.inr ⟨_, enters, by rw [look]; rfl⟩)
      · exact ih (List.mem_append_right _ hstep)

theorem length_le (h : fs.Walk n here xs l) (hstep : step ∈ xs) : step.length ≤ nameLimit := by
  rcases h.exists_enters_of_mem hstep with rfl | rfl | ⟨d, henters, -⟩
  · decide
  · decide
  · exact henters.length_le

/-- A walk that begins with a name finds an entry of that name. -/
theorem enters (h : fs.Walk n here (name :: rest) l) (hname : Path.IsName name) :
    fs.Enters here name ∧ (fs.tree.look (here ++ [name])).isSome := by
  cases h with
  | stay => exact absurd rfl hname.ne_dot
  | up => exact absurd rfl hname.ne_dotdot
  | down enters look => exact ⟨enters, by rw [look]; rfl⟩
  | follow enters look => exact ⟨enters, by rw [look]; rfl⟩

theorem searchable (h : fs.Walk n here xs l) (hl : fs.Searchable l) : fs.Searchable here := by
  cases h with
  | done => exact hl
  | stay searchable => exact searchable
  | up searchable => exact searchable
  | down enters => exact enters.searchable
  | follow enters => exact enters.searchable

theorem nul_notMem (h : fs.Walk n here xs l) (hwell : fs.tree.WellFormed) (hstep : step ∈ xs) :
    0 ∉ step := by
  rcases h.exists_enters_of_mem hstep with rfl | rfl | ⟨d, -, hsome⟩
  · decide
  · decide
  · exact (hwell.isEntryName hsome).nul_notMem

end Walk

/-! ## Steps that only ask -/

/-- `xs` is `ys` with a `.` put in here and there. -/
inductive Pads : List Bytes → List Bytes → Prop
  | nil : Pads [] []
  | cons (step : Bytes) {xs ys : List Bytes} (tail : Pads xs ys) : Pads (step :: xs) (step :: ys)
  | dot {xs ys : List Bytes} (tail : Pads xs ys) : Pads (Path.dot :: xs) ys

theorem pads_filter (xs : List Bytes) : Pads xs (xs.filter (· ≠ Path.dot)) := by
  induction xs with
  | nil => exact .nil
  | cons step xs ih =>
      by_cases hdot : step = Path.dot
      · subst hdot
        rw [List.filter_cons_of_neg (by simp)]
        exact .dot ih
      · rw [List.filter_cons_of_pos (by simpa using hdot)]
        exact .cons step ih

theorem Pads.append_left (zs : List Bytes) (h : Pads xs ys) : Pads (zs ++ xs) (zs ++ ys) := by
  induction zs with
  | nil => exact h
  | cons step zs ih => exact .cons step ih

/-- A walk that asks less leads to the same place. -/
theorem Walk.unpad (h : fs.Walk n here xs l) (hpads : Pads xs ys) : fs.Walk n here ys l := by
  induction h generalizing ys with
  | done here =>
      cases hpads
      exact .done here
  | stay searchable tail ih =>
      cases hpads with
      | cons _ htail => exact .stay searchable (ih htail)
      | dot htail => exact ih htail
  | up searchable tail ih =>
      cases hpads with
      | cons _ htail => exact .up searchable (ih htail)
  | down enters look noLink tail ih =>
      cases hpads with
      | cons _ htail => exact .down enters look noLink (ih htail)
      | dot => exact absurd rfl enters.ne_dot
  | follow enters look ne_nil tail ih =>
      cases hpads with
      | cons _ htail => exact .follow enters look ne_nil (ih (htail.append_left _))
      | dot => exact absurd rfl enters.ne_dot

theorem Pads.exists_of_nil (h : Pads xs []) : ∃ k, xs = List.replicate k Path.dot := by
  generalize hnil : ([] : List Bytes) = zs at h
  induction h with
  | nil => exact ⟨0, rfl⟩
  | cons => cases hnil
  | dot _ ih =>
      obtain ⟨k, rfl⟩ := ih hnil
      exact ⟨k + 1, rfl⟩

theorem Pads.exists_of_cons (h : Pads xs (step :: ys)) :
    ∃ k zs, xs = List.replicate k Path.dot ++ step :: zs ∧ Pads zs ys := by
  generalize hcons : step :: ys = zs at h
  induction h with
  | nil => cases hcons
  | cons step htail =>
      cases hcons
      exact ⟨0, _, rfl, htail⟩
  | dot _ ih =>
      obtain ⟨k, zs, rfl, htail⟩ := ih hcons
      exact ⟨k + 1, zs, rfl, htail⟩

theorem Walk.dots (k : Nat) (hs : fs.Searchable here) (h : fs.Walk n here xs l) :
    fs.Walk n here (List.replicate k Path.dot ++ xs) l := by
  induction k with
  | zero => exact h
  | succ k ih => exact .stay hs ih

/-- A walk that ends in a directory one may search can ask on the way. -/
theorem Walk.pad (h : fs.Walk n here ys l) (hend : fs.Searchable l) (hpads : Pads xs ys) :
    fs.Walk n here xs l := by
  induction h generalizing xs with
  | done here =>
      obtain ⟨k, rfl⟩ := hpads.exists_of_nil
      rw [← List.append_nil (List.replicate k Path.dot)]
      exact (Walk.done here).dots k hend
  | stay searchable tail ih =>
      obtain ⟨k, zs, rfl, htail⟩ := hpads.exists_of_cons
      exact Walk.dots k searchable (.stay searchable (ih hend htail))
  | up searchable tail ih =>
      obtain ⟨k, zs, rfl, htail⟩ := hpads.exists_of_cons
      exact Walk.dots k searchable (.up searchable (ih hend htail))
  | down enters look noLink tail ih =>
      obtain ⟨k, zs, rfl, htail⟩ := hpads.exists_of_cons
      exact Walk.dots k enters.searchable (.down enters look noLink (ih hend htail))
  | follow enters look ne_nil tail ih =>
      obtain ⟨k, zs, rfl, htail⟩ := hpads.exists_of_cons
      exact Walk.dots k enters.searchable
        (.follow enters look ne_nil (ih hend (htail.append_left _)))

/-! ## Walks over names -/

/-- No link stands in the way from a directory down the names. -/
def Clear (fs : FileSystem) (here : Location) (names : List Bytes) : Prop :=
  ∀ before, before <+: names → before ≠ [] → ∀ target,
    fs.tree.look (here ++ before) ≠ some (.link target)

theorem Clear.tail (h : fs.Clear here (name :: rest)) : fs.Clear (here ++ [name]) rest := by
  intro before hbefore _ target
  rw [List.append_assoc, List.singleton_append]
  exact h (name :: before) (List.cons_prefix_cons.mpr ⟨rfl, hbefore⟩) (List.cons_ne_nil _ _) target

/-- Down names without links a walk goes straight. -/
theorem Walk.straight (h : fs.Walk n here xs l) (hnames : ∀ name ∈ xs, Path.IsName name)
    (hclear : fs.Clear here xs) :
    n = 0 ∧ l = here ++ xs ∧ ∀ before, before <+: xs → before ≠ xs →
      fs.Searchable (here ++ before) := by
  induction xs generalizing here with
  | nil =>
      cases h
      refine ⟨rfl, (List.append_nil _).symm, fun before hbefore hne => ?_⟩
      exact absurd (List.prefix_nil.mp hbefore) hne
  | cons name xs ih =>
      have hname := hnames name List.mem_cons_self
      -- A name leads down, and to no link, so only one rule is left.
      cases h with
      | stay => exact absurd rfl hname.ne_dot
      | up => exact absurd rfl hname.ne_dotdot
      | follow _ look =>
          exact absurd look (hclear [name] (List.cons_prefix_cons.mpr ⟨rfl, List.nil_prefix⟩)
            (List.cons_ne_nil _ _) _)
      | down enters look noLink tail =>
          obtain ⟨hn, hl, hsearch⟩ :=
            ih tail (fun name hmem => hnames name (List.mem_cons_of_mem _ hmem)) hclear.tail
          refine ⟨hn, by rw [hl, List.append_assoc]; rfl, fun before hbefore hne => ?_⟩
          rcases List.prefix_cons_iff.mp hbefore with rfl | ⟨before, rfl, hrest⟩
          · rw [List.append_nil]
            exact enters.searchable
          · have hstep := hsearch before hrest fun heq => hne (by rw [heq])
            rwa [List.append_assoc] at hstep

/-- A walk goes down names where all directories on the way may be searched. -/
theorem walk_straight (hnames : ∀ name ∈ xs, Path.IsName name ∧ name.length ≤ nameLimit)
    (hsearch : ∀ before, before <+: xs → before ≠ xs → fs.Searchable (here ++ before))
    (hend : fs.tree.look (here ++ xs) = some face) (hface : ∀ target, face ≠ .link target) :
    fs.Walk 0 here xs (here ++ xs) := by
  induction xs generalizing here with
  | nil =>
      rw [List.append_nil]
      exact .done here
  | cons name xs ih =>
      obtain ⟨hname, hlength⟩ := hnames name List.mem_cons_self
      have hhere : fs.Searchable here := by
        have hfirst := hsearch [] List.nil_prefix (List.cons_ne_nil _ _).symm
        rwa [List.append_nil] at hfirst
      have hassoc : here ++ name :: xs = here ++ [name] ++ xs := by simp
      -- Next comes the end of the way or a directory to be searched, and neither is a link.
      have hnext : ∃ face, fs.tree.look (here ++ [name]) = some face ∧
        ∀ target, face ≠ .link target := by
        by_cases hnil : xs = []
        · subst hnil
          exact ⟨face, hend, hface⟩
        · have hbegins : [name] <+: name :: xs := List.cons_prefix_cons.mpr ⟨rfl, List.nil_prefix⟩
          obtain ⟨mode, hlook, -⟩ := hsearch [name] hbegins (by simpa using Ne.symm hnil)
          exact ⟨_, hlook, fun target => Face.noConfusion⟩
      obtain ⟨face', hlook, hnoLink⟩ := hnext
      rw [hassoc] at hend ⊢
      refine .down ⟨hhere, hname.ne_dot, hname.ne_dotdot, hlength⟩ hlook hnoLink ?_
      refine ih (fun name hmem => hnames name (List.mem_cons_of_mem _ hmem)) ?_ hend
      intro before hbefore hne
      rw [List.append_assoc, List.singleton_append]
      exact hsearch (name :: before) (List.cons_prefix_cons.mpr ⟨rfl, hbefore⟩)
        fun heq => hne (List.cons.inj heq).2

end FileSystem

end Confinement
