import ArbitraryComposer.Compositor.OperatorGraph

/-!
# Damage of Operators

How far the damage an operator is reported to have covers its paths to the damaged content. A
result is kept when the walk leaves a content, also when the budget cut the walk below it. The
content whose inputs were cut is one the walk reached with a single input of budget left. If it
can be reached on a shorter path too, the kept result leaves out what the shorter path still has
budget for. Without such a content every path within the budget is covered.

## Main definitions

- `RoutesEveryPath`: the damage of an operator covers each of its paths within the budget.
- `CutReused`: a content with its inputs cut on one path and admitted on another.

## Main results

- `routesEveryPath_iff`: exactly the graphs without such a content are covered.
- `damage_lost_on_shortcut`: a chain with a shortcut, and a path of it that is not.
-/

namespace ArbitraryComposer

open ContentGraph

variable {κ α : Type*}

/-! ## Paths -/

namespace ContentGraph

/-- Paths compose. -/
theorem Walk.trans {inputs : κ → List (Option κ)} {a b c : κ} {j k : ℕ} (front : Walk inputs a b j)
    (back : Walk inputs b c k) : Walk inputs a c (j + k) := by
  induction front with
  | refl _ => simpa using back
  | @step n d b i edge _ ih =>
    rw [Nat.add_right_comm]
    exact .step edge (ih back)

/-- A path splits at every length up to its own. -/
theorem Walk.split {inputs : κ → List (Option κ)} {a c : κ} :
    ∀ {j k : ℕ}, Walk inputs a c (j + k) → ∃ b, Walk inputs a b j ∧ Walk inputs b c k
  | 0, k, whole => ⟨a, .refl a, by simpa using whole⟩
  | j + 1, k, whole => by
    rw [Nat.add_right_comm] at whole
    obtain _ | ⟨edge, rest⟩ := whole
    obtain ⟨b, front, back⟩ := rest.split
    exact ⟨b, .step edge front, back⟩

/-- What a rectangle maps to along a path comes with the path. -/
theorem Along.walk [LinearOrder α] {G : ContentGraph κ α} {damaged n : κ} {rect r : Rect α} {k : ℕ}
    (along : Along G damaged rect n r k) : Walk G.inputs n damaged k := by
  induction along with
  | here => exact .refl _
  | up edge _ _ ih => exact .step (List.mem_of_getElem? edge) ih

/-- In an acyclic graph the damage itself is all there is along paths from the damaged content. -/
theorem Along.eq_of_acyclic [LinearOrder α] {G : ContentGraph κ α} {damaged : κ} {rect r : Rect α}
    {k : ℕ} (acyclic : Acyclic G.inputs) (along : Along G damaged rect damaged r k) : r = rect := by
  cases along with
  | here => rfl
  | up edge real along => exact (acyclic damaged _ (Along.up edge real along).walk).elim

/-- Some content is reached from the operator on a path that leaves a budget of one input, has an
input that still has to reach the damaged content, and is reached on a path that leaves enough
budget for that. -/
def CutReused (inputs : κ → List (Option κ)) (op damaged : κ) (maxDepth : ℕ) : Prop :=
  ∃ n c k j len, Walk inputs op n k ∧ k + 1 = maxDepth ∧ some c ∈ inputs n ∧ c ≠ damaged ∧
    Walk inputs op n j ∧ Walk inputs c damaged len ∧ j + 1 + len ≤ maxDepth

/-- A content reached on a path too long for one of its paths to the damaged content, and on one
that is not, has a content below it that was cut. -/
theorem cutReused_of_long {inputs : κ → List (Option κ)} {op n damaged : κ} {maxDepth d j k : ℕ}
    (acyclic : Acyclic inputs) (first : Walk inputs op n d) (second : Walk inputs op n j)
    (down : Walk inputs n damaged k) (admitted : d < maxDepth) (long : maxDepth < d + k)
    (short : j + k ≤ maxDepth) : CutReused inputs op damaged maxDepth := by
  -- follow the path down to where one input of the budget is left
  obtain ⟨len, rfl⟩ : ∃ len, k = (maxDepth - 1 - d) + (len + 2) :=
    ⟨k - (maxDepth - 1 - d) - 2, by omega⟩
  obtain ⟨m, upper, lower⟩ := down.split
  obtain _ | ⟨edge, rest⟩ := lower
  refine ⟨m, _, d + (maxDepth - 1 - d), j + (maxDepth - 1 - d), len + 1, first.trans upper,
    by omega, edge, ?_, second.trans upper, rest, by omega⟩
  rintro rfl
  exact acyclic _ _ rest

end ContentGraph

variable [LinearOrder α]

/-- A result that covers a rectangle. -/
def Covers (result : Option (Rect α)) (r : Rect α) : Prop :=
  ∃ q, result = some q ∧ r.toSet ⊆ q.toSet

/-- A union keeps what its result covers. -/
theorem Covers.unionResult {result : Option (Rect α)} {r : Rect α} (covers : Covers result r)
    (mapped : Rect α) : Covers (unionResult result mapped) r := by
  obtain ⟨q, rfl, sub⟩ := covers
  exact ⟨_, rfl, sub.trans (toSet_subset_rectUnion_left q mapped)⟩

/-- A union covers what it adds. -/
theorem covers_unionResult (result : Option (Rect α)) {r mapped : Rect α}
    (sub : r.toSet ⊆ mapped.toSet) : Covers (unionResult result mapped) r := by
  cases result with
  | none => exact ⟨mapped, rfl, sub⟩
  | some q => exact ⟨_, rfl, sub.trans (toSet_subset_rectUnion_right q mapped)⟩

/-! ## The loop over the inputs -/

/-- The rule for the loop over the inputs: an assertion at each position, which unbound inputs
move along and bound ones establish anew. -/
theorem mergeInputs_rule (visit : κ → DamageMemo κ α → Option (Rect α) × DamageMemo κ α)
    (map : ℕ → Rect α → Rect α) (P : ℕ → Option (Rect α) → DamageMemo κ α → Prop)
    (rest : List (Option κ)) (i : ℕ) (result : Option (Rect α)) (memo : DamageMemo κ α)
    (unbound : ∀ j result memo, rest[j]? = some none → P (i + j) result memo →
      P (i + j + 1) result memo)
    (bound : ∀ j c result memo, rest[j]? = some (some c) → P (i + j) result memo →
      match visit c memo with
      | (some sub, memo) => P (i + j + 1) (unionResult result (map (i + j) sub)) memo
      | (none, memo) => P (i + j + 1) result memo)
    (start : P i result memo) :
    P (i + rest.length) (mergeInputs visit map rest i result memo).1
      (mergeInputs visit map rest i result memo).2 := by
  induction rest generalizing i result memo with
  | nil => simpa [mergeInputs] using start
  | cons input rest ih =>
    have later (j : ℕ) : i + 1 + j = i + (j + 1) := by omega
    have onward (result memo) (here : P (i + 1) result memo) :
        P (i + (input :: rest).length) (mergeInputs visit map rest (i + 1) result memo).1
          (mergeInputs visit map rest (i + 1) result memo).2 := by
      rw [List.length_cons, ← later]
      refine ih (i + 1) result memo ?_ ?_ here
      · intro j result memo hj h
        simpa only [later] using unbound (j + 1) result memo hj (by simpa only [later] using h)
      · intro j c result memo hj h
        simpa only [later] using bound (j + 1) c result memo hj (by simpa only [later] using h)
    cases input with
    | none => exact onward _ _ (unbound 0 result memo rfl start)
    | some c =>
      have here := bound 0 c result memo rfl start
      simp only [mergeInputs]
      -- what the input gave decides whether the result grows
      generalize visit c memo = out at here ⊢
      rcases out with ⟨_ | sub, memo⟩
      · exact onward _ _ here
      · exact onward _ _ here

/-! ## Damage that is covered -/

section Sufficient

variable [DecidableEq κ] {G : ContentGraph κ α} {op damaged : κ} {rect : Rect α} {maxDepth : ℕ}

/-- Every result that is kept covers the paths within the budget, on whatever path the content is
reached. -/
def DamageMemo.Complete (memo : DamageMemo κ α) (G : ContentGraph κ α) (op damaged : κ)
    (rect : Rect α) (maxDepth : ℕ) : Prop :=
  ∀ n result, memo n = some result → ∀ j r k, Walk G.inputs op n j → Along G damaged rect n r k →
    j + k ≤ maxDepth → Covers result r

/-- Keeping one more complete result. -/
theorem DamageMemo.Complete.emplace {memo : DamageMemo κ α} {node : κ} {result : Option (Rect α)}
    (complete : memo.Complete G op damaged rect maxDepth)
    (covers : ∀ j r k, Walk G.inputs op node j → Along G damaged rect node r k →
      j + k ≤ maxDepth → Covers result r) :
    (memo.emplace node result).Complete G op damaged rect maxDepth := by
  unfold DamageMemo.emplace
  split
  · exact complete
  · intro n kept hn
    rcases eq_or_ne n node with rfl | other
    · obtain rfl : result = kept := by simpa using hn
      exact covers
    · exact complete n kept (by simpa [other] using hn)

/-- A visit keeps the memo complete, and its result covers every path within the budget left. -/
theorem mapDamageUp_covers (acyclic : Acyclic G.inputs) (covering : G.Covering)
    (uncut : ¬ CutReused G.inputs op damaged maxDepth) (left : ℕ) (node : κ) (onStack : List κ)
    (memo : DamageMemo κ α) (d : ℕ) (depth : d + left = maxDepth) (walk : Walk G.inputs op node d)
    (stack : ∀ s ∈ onStack, ∃ k, Walk G.inputs s node (k + 1))
    (complete : memo.Complete G op damaged rect maxDepth) :
    (mapDamageUp G damaged rect left node onStack memo).2.Complete G op damaged rect maxDepth ∧
      ∀ r k, Along G damaged rect node r k → d + k ≤ maxDepth →
        Covers (mapDamageUp G damaged rect left node onStack memo).1 r := by
  unfold mapDamageUp
  by_cases same : node = damaged
  · subst same
    rw [if_pos rfl]
    refine ⟨complete, fun r k along _ => ⟨rect, rfl, ?_⟩⟩
    rw [along.eq_of_acyclic acyclic]
  rw [if_neg same]
  rcases kept : memo node with _ | result
  swap
  · exact ⟨complete, fun r k along le => complete node result kept d r k walk along le⟩
  rcases left with _ | left
  · refine ⟨complete, fun r k along le => ?_⟩
    -- no budget is left, and only the damaged content is reached without any
    cases along with
    | here => exact (same rfl).elim
    | up => omega
  have fresh : node ∉ onStack := by
    intro again
    obtain ⟨k, cycle⟩ := stack node again
    exact acyclic node k cycle
  simp only [if_neg fresh]
  -- after each input the result covers the paths through the inputs so far
  have loop := mergeInputs_rule
    (fun input => mapDamageUp G damaged rect left input (node :: onStack))
    (G.mapInputDamage node)
    (fun i result memo => memo.Complete G op damaged rect maxDepth ∧
      ∀ i' < i, ∀ c r k, (G.inputs node)[i']? = some (some c) → ¬ r.empty = true →
        Along G damaged rect c r k → d + (k + 1) ≤ maxDepth →
        Covers result (G.mapInputDamage node i' r))
    (G.inputs node) 0 none memo ?_ ?_ ⟨complete, fun i' hi => (Nat.not_lt_zero i' hi).elim⟩
  · obtain ⟨complete', covers⟩ := loop
    generalize mergeInputs (α := α) _ _ _ _ _ _ = out at complete' covers ⊢
    obtain ⟨result, memo'⟩ := out
    have near (r : Rect α) (k : ℕ) (along : Along G damaged rect node r k)
        (le : d + k ≤ maxDepth) : Covers result r := by
      cases along with
      | here => exact (same rfl).elim
      | @up _ c i k r edge real along =>
        have bound := (List.getElem?_eq_some_iff.mp edge).1
        exact covers i (by omega) c r k edge real along le
    refine ⟨complete'.emplace fun j r k other along le => ?_, near⟩
    by_cases within : d + k ≤ maxDepth
    · exact near r k along within
    · exact (uncut (cutReused_of_long acyclic walk other along.walk (by omega) (by omega) le)).elim
  · intro j result memo edge holds
    refine ⟨holds.1, fun i' hi c r k edge' => ?_⟩
    rcases Nat.lt_succ_iff_lt_or_eq.mp hi with earlier | rfl
    · exact holds.2 i' earlier c r k edge'
    · rw [Nat.zero_add, edge] at edge'
      cases edge'
  · intro j c result memo edge holds
    rw [Nat.zero_add] at holds ⊢
    have down : Walk G.inputs node c 1 := .step (List.mem_of_getElem? edge) (.refl c)
    have above (s : κ) (hs : s ∈ node :: onStack) : ∃ k, Walk G.inputs s c (k + 1) := by
      rcases List.mem_cons.mp hs with rfl | hs
      · exact ⟨0, down⟩
      · obtain ⟨k, walk⟩ := stack s hs
        exact ⟨k + 1, walk.trans down⟩
    obtain ⟨complete', covers⟩ := mapDamageUp_covers acyclic covering uncut left c
      (node :: onStack) memo (d + 1) (by omega) (walk.trans down) above holds.1
    generalize mapDamageUp G damaged rect left c (node :: onStack) memo = out at complete' covers
    rcases out with ⟨_ | sub, memo'⟩
    · refine ⟨complete', fun i' hi c' r k edge' real along le => ?_⟩
      rcases Nat.lt_succ_iff_lt_or_eq.mp hi with earlier | rfl
      · exact holds.2 i' earlier c' r k edge' real along le
      · -- an input that gave no result has no path within the budget
        obtain rfl : c = c' := by simpa [edge] using edge'
        obtain ⟨q, hq, -⟩ := covers r k along (by omega)
        cases hq
    · refine ⟨complete', fun i' hi c' r k edge' real along le => ?_⟩
      rcases Nat.lt_succ_iff_lt_or_eq.mp hi with earlier | rfl
      · exact (holds.2 i' earlier c' r k edge' real along le).unionResult _
      · obtain rfl : c = c' := by simpa [edge] using edge'
        obtain ⟨q, hq, sub'⟩ := covers r k along (by omega)
        cases hq
        exact covers_unionResult _ (covering node i' r _ real sub')

end Sufficient

/-! ## Damage that is lost -/

namespace ContentGraph

/-- A path follows the first input of every content on it. -/
inductive HeadWalk (inputs : κ → List (Option κ)) : κ → κ → ℕ → Prop
  /-- The path of no input. -/
  | refl (n : κ) : HeadWalk inputs n n 0
  /-- One more first input at the top. -/
  | step {a u b : κ} {k : ℕ} {rest : List (Option κ)} : inputs a = some u :: rest →
      HeadWalk inputs u b k → HeadWalk inputs a b (k + 1)

/-- A path of first inputs is a path. -/
theorem HeadWalk.walk {inputs : κ → List (Option κ)} {a b : κ} {k : ℕ}
    (walk : HeadWalk inputs a b k) : Walk inputs a b k := by
  induction walk with
  | refl n => exact .refl n
  | step head _ ih => exact .step (by rw [head]; exact List.mem_cons_self) ih

/-- Paths do not depend on the order of the inputs. -/
theorem Walk.perm {inputs order : κ → List (Option κ)} (perm : ∀ n, (order n).Perm (inputs n))
    {a b : κ} {k : ℕ} (walk : Walk inputs a b k) : Walk order a b k := by
  induction walk with
  | refl n => exact .refl n
  | step edge _ ih => exact .step ((perm _).symm.subset edge) ih

/-- The contents at or below another. -/
def Below (inputs : κ → List (Option κ)) (c v : κ) : Prop := ∃ k, Walk inputs c v k

/-- In an acyclic graph the inputs can be ordered so that a given path is walked first. -/
theorem exists_headWalk [DecidableEq κ] {inputs : κ → List (Option κ)} (acyclic : Acyclic inputs)
    {a b : κ} {k : ℕ} (walk : Walk inputs a b k) :
    ∃ order : κ → List (Option κ), (∀ n, (order n).Perm (inputs n)) ∧ HeadWalk order a b k := by
  induction walk with
  | refl n => exact ⟨inputs, fun _ => .refl _, .refl n⟩
  | @step a u b k edge walk ih =>
    obtain ⟨order, perm, head⟩ := ih
    refine ⟨Function.update order a (some u :: (inputs a).erase (some u)), fun n => ?_,
      .step (Function.update_self ..) ?_⟩
    · rcases eq_or_ne n a with rfl | other
      · rw [Function.update_self]
        exact (List.perm_cons_erase edge).symm
      · rw [Function.update_of_ne other]
        exact perm n
    · -- the rest of the path does not come back to the content whose inputs are reordered
      have away : ∀ {v w : κ} {j : ℕ}, Below inputs u v → HeadWalk order v w j →
          HeadWalk (Function.update order a (some u :: (inputs a).erase (some u))) v w j := by
        intro v w j below head
        induction head with
        | refl v => exact .refl v
        | @step v x w j rest first _ ih =>
          obtain ⟨len, down⟩ := below
          have other : v ≠ a := by
            rintro rfl
            exact acyclic v len (.step edge down)
          have further : some x ∈ inputs v := (perm v).subset (by rw [first]; exact List.mem_cons_self)
          refine .step (by rw [Function.update_of_ne other]; exact first) (ih ⟨len + 1, ?_⟩)
          exact down.trans (.step further (.refl x))
      exact away ⟨0, .refl u⟩ head

end ContentGraph

/-- A result that covers no point. -/
def Hollow (result : Option (Rect α)) : Prop := ∀ q, result = some q → q.empty = true

/-- A union of results that cover no point covers none. -/
theorem Hollow.unionResult {result : Option (Rect α)} {mapped : Rect α} (hollow : Hollow result)
    (blank : mapped.empty = true) : Hollow (unionResult result mapped) := by
  cases result with
  | none => rintro q ⟨⟩; exact blank
  | some r => rintro q ⟨⟩; exact empty_rectUnion (hollow r rfl) blank

open Classical in
/-- The graph whose edges lead nothing out of the part at or below `c`, the edge from `n` to `c`
apart. -/
noncomputable def blockingGraph (inputs : κ → List (Option κ)) (n c : κ) (x : α) :
    ContentGraph κ α where
  inputs := inputs
  mapInputDamage m i r :=
    if ¬ Below inputs c m ∧ ∃ v, (inputs m)[i]? = some (some v) ∧ Below inputs c v ∧
      ¬ (m = n ∧ v = c) then ⟨x, x, x, x⟩ else r

section Necessary

variable {inputs : κ → List (Option κ)} {op damaged n c : κ} {x : α} {rect : Rect α}

/-- Its damage maps are monotone. -/
theorem covering_blockingGraph (inputs : κ → List (Option κ)) (n c : κ) (x : α) :
    (blockingGraph inputs n c x).Covering := by
  intro m i r s _ sub
  unfold blockingGraph
  dsimp only
  split
  · exact subset_rfl
  · exact sub

/-- An edge into the part at or below `c` maps damage to an empty rectangle. -/
theorem empty_mapInputDamage {m v : κ} {i : ℕ} (outside : ¬ Below inputs c m)
    (edge : (inputs m)[i]? = some (some v)) (inside : Below inputs c v) (other : ¬ (m = n ∧ v = c))
    (r : Rect α) : ((blockingGraph inputs n c x).mapInputDamage m i r).empty = true := by
  unfold blockingGraph
  dsimp only
  rw [if_pos ⟨outside, v, edge, inside, other⟩]
  simp [Rect.empty]

omit [LinearOrder α] in
/-- Other edges keep damage as it is. -/
theorem mapInputDamage_eq_self {m v : κ} {i : ℕ} (edge : (inputs m)[i]? = some (some v))
    (free : Below inputs c m ∨ ¬ Below inputs c v ∨ (m = n ∧ v = c)) (r : Rect α) :
    (blockingGraph inputs n c x).mapInputDamage m i r = r := by
  unfold blockingGraph
  dsimp only
  refine if_neg ?_
  rintro ⟨outside, w, edge', inside, other⟩
  obtain rfl : v = w := by simpa [edge] using edge'
  rcases free with below | above | same
  · exact outside below
  · exact above inside
  · exact other same

/-- At or below `c` the whole damage arrives along each path. -/
theorem along_inside (real : ¬ rect.empty = true) {v : κ} {k : ℕ} (walk : Walk inputs v damaged k)
    (below : Below inputs c v) : Along (blockingGraph inputs n c x) damaged rect v rect k := by
  induction walk with
  | refl v => exact .here
  | @step v u _ k edge _ ih =>
    obtain ⟨i, hi⟩ := List.getElem?_of_mem edge
    obtain ⟨d, down⟩ := below
    have lower := ih ⟨d + 1, down.trans (.step edge (.refl u))⟩
    have whole := Along.up (G := blockingGraph inputs n c x) hi real lower
    rwa [mapInputDamage_eq_self hi (.inl ⟨d, down⟩)] at whole

/-- Above `n` the whole damage arrives along each path through `n`. -/
theorem along_above (acyclic : Acyclic inputs) (real : ¬ rect.empty = true)
    (edge : some c ∈ inputs n) {v : κ} {j k : ℕ} (walk : Walk inputs v n j)
    (along : Along (blockingGraph inputs n c x) damaged rect n rect k) :
    Along (blockingGraph inputs n c x) damaged rect v rect (k + j) := by
  induction walk with
  | refl v => exact along
  | @step v u n j first walk ih =>
    obtain ⟨i, hi⟩ := List.getElem?_of_mem first
    have upper := Along.up (G := blockingGraph inputs n c x) hi real (ih edge along)
    rwa [mapInputDamage_eq_self hi (.inr (.inl ?_))] at upper
    -- a content above `n` and below `c` would be on a cycle
    rintro ⟨d, below⟩
    exact acyclic c (d + j) ((below.trans walk).trans (.step edge (.refl c)))

/-- The whole damage arrives along each path through `n` and `c`. -/
theorem along_blockingGraph (acyclic : Acyclic inputs) (real : ¬ rect.empty = true) {j len : ℕ}
    (up : Walk inputs op n j) (edge : some c ∈ inputs n) (down : Walk inputs c damaged len) :
    Along (blockingGraph inputs n c x) damaged rect op rect (len + 1 + j) := by
  obtain ⟨i, hi⟩ := List.getElem?_of_mem edge
  have joint := Along.up (G := blockingGraph inputs n c x) hi real
    (along_inside real down ⟨0, .refl c⟩)
  rw [mapInputDamage_eq_self hi (.inr (.inr ⟨rfl, rfl⟩))] at joint
  exact along_above acyclic real edge up joint

variable [DecidableEq κ]

/-- `n` has its result, and outside the part at or below `c` no result covers a point. -/
structure HollowMemo (inputs : κ → List (Option κ)) (n c : κ) (memo : DamageMemo κ α) : Prop where
  /-- The result of `n` is kept. -/
  settled : (memo n).isSome = true
  /-- Results outside cover nothing. -/
  hollow : ∀ v result, ¬ Below inputs c v → memo v = some result → Hollow result

/-- Keeping one more result. -/
theorem HollowMemo.emplace {memo : DamageMemo κ α} (inv : HollowMemo inputs n c memo) {v : κ}
    {result : Option (Rect α)} (hollow : ¬ Below inputs c v → Hollow result) :
    HollowMemo inputs n c (memo.emplace v result) := by
  unfold DamageMemo.emplace
  split
  · exact inv
  · refine ⟨?_, fun w kept outside hw => ?_⟩
    · rcases eq_or_ne n v with rfl | other
      · simp
      · simpa [other] using inv.settled
    · rcases eq_or_ne w v with rfl | other
      · obtain rfl : result = kept := by simpa using hw
        exact hollow outside
      · exact inv.hollow w kept outside (by simpa [other] using hw)

omit [DecidableEq κ] in
/-- The loop over the inputs of a content other than `n`, when every visit keeps the memo hollow. -/
theorem mergeInputs_hollow (visit : κ → DamageMemo κ α → Option (Rect α) × DamageMemo κ α)
    (visits : ∀ u memo, HollowMemo inputs n c memo → HollowMemo inputs n c (visit u memo).2 ∧
      (¬ Below inputs c u → Hollow (visit u memo).1))
    {v : κ} (other : v ≠ n) (rest : List (Option κ)) (i : ℕ)
    (suffix : ∀ j, rest[j]? = (inputs v)[i + j]?) (result : Option (Rect α))
    (memo : DamageMemo κ α) (inv : HollowMemo inputs n c memo)
    (hollow : ¬ Below inputs c v → Hollow result) :
    HollowMemo inputs n c
        (mergeInputs visit ((blockingGraph inputs n c x).mapInputDamage v) rest i result memo).2 ∧
      (¬ Below inputs c v → Hollow
        (mergeInputs visit ((blockingGraph inputs n c x).mapInputDamage v) rest i result memo).1) := by
  refine mergeInputs_rule visit _
    (fun _ result memo => HollowMemo inputs n c memo ∧ (¬ Below inputs c v → Hollow result))
    rest i result memo (fun _ _ _ _ holds => holds) ?_ ⟨inv, hollow⟩
  intro j u result memo edge holds
  have edge' : (inputs v)[i + j]? = some (some u) := by rw [← suffix, edge]
  obtain ⟨inv', hollow'⟩ := visits u memo holds.1
  generalize visit u memo = out at inv' hollow' ⊢
  rcases out with ⟨_ | sub, memo'⟩
  · exact ⟨inv', holds.2⟩
  · refine ⟨inv', fun outside => (holds.2 outside).unionResult ?_⟩
    -- the input is inside and its edge is blocked, or outside and its result is hollow
    by_cases inside : Below inputs c u
    · exact empty_mapInputDamage outside edge' inside (fun same => other same.1) sub
    · rw [mapInputDamage_eq_self edge' (.inr (.inl inside))]
      exact hollow' inside sub rfl

/-- Once `n` has its result, no visit outside the part at or below `c` finds damage. -/
theorem mapDamageUp_hollow (reaches : Below inputs c damaged) (left : ℕ) (v : κ) (onStack : List κ)
    (memo : DamageMemo κ α) (inv : HollowMemo inputs n c memo) :
    HollowMemo inputs n c
        (mapDamageUp (blockingGraph inputs n c x) damaged rect left v onStack memo).2 ∧
      (¬ Below inputs c v → Hollow
        (mapDamageUp (blockingGraph inputs n c x) damaged rect left v onStack memo).1) := by
  have nothing : Hollow (none : Option (Rect α)) := by rintro q ⟨⟩
  unfold mapDamageUp
  split
  · next same => exact ⟨inv, fun outside => (outside (same ▸ reaches)).elim⟩
  rcases kept : memo v with _ | result
  swap
  · exact ⟨inv, fun outside => inv.hollow v result outside kept⟩
  match left with
  | 0 => exact ⟨inv, fun _ => nothing⟩
  | left + 1 =>
    dsimp only
    split
    · exact ⟨inv, fun _ => nothing⟩
    · have other : v ≠ n := by
        rintro rfl
        have := inv.settled
        rw [kept] at this
        cases this
      obtain ⟨inv', hollow⟩ := mergeInputs_hollow (x := x)
        (fun u => mapDamageUp (blockingGraph inputs n c x) damaged rect left u (v :: onStack))
        (fun u memo inv => mapDamageUp_hollow reaches left u (v :: onStack) memo inv)
        other (inputs v) 0 (fun j => by rw [Nat.zero_add]) none memo inv (fun _ => nothing)
      exact ⟨inv'.emplace hollow, hollow⟩

/-- A walk along first inputs that leaves `n` a budget of one input finds no damage: the inputs of
`n` are cut, and what comes after finds the empty result of `n`. -/
theorem mapDamageUp_spine (acyclic : Acyclic inputs) (reaches : Below inputs c damaged)
    (edge : some c ∈ inputs n) (proper : c ≠ damaged) {v : κ} {k : ℕ}
    (spine : HeadWalk inputs v n k) (onStack : List κ)
    (stack : ∀ s ∈ onStack, ∃ k, Walk inputs s v (k + 1)) :
    Hollow (mapDamageUp (blockingGraph inputs n c x) damaged rect (k + 1) v onStack
        fun _ => none).1 ∧
      HollowMemo inputs n c (mapDamageUp (blockingGraph inputs n c x) damaged rect (k + 1) v onStack
        fun _ => none).2 := by
  have nothing : Hollow (none : Option (Rect α)) := by rintro q ⟨⟩
  have outside {w : κ} {j : ℕ} (walk : Walk inputs w n j) : ¬ Below inputs c w := by
    rintro ⟨d, below⟩
    exact acyclic c (d + j) ((below.trans walk).trans (.step edge (.refl c)))
  have outside' := outside spine.walk
  have fresh : v ∉ onStack := by
    intro again
    obtain ⟨k, cycle⟩ := stack v again
    exact acyclic v k cycle
  have above (w : κ) (first : some w ∈ inputs v) (s : κ) (hs : s ∈ v :: onStack) :
      ∃ k, Walk inputs s w (k + 1) := by
    rcases List.mem_cons.mp hs with rfl | hs
    · exact ⟨0, .step first (.refl w)⟩
    · obtain ⟨k, walk⟩ := stack s hs
      exact ⟨k + 1, walk.trans (.step first (.refl w))⟩
  have other : v ≠ damaged := by
    rintro rfl
    exact outside' reaches
  unfold mapDamageUp
  simp only [if_neg other, if_neg fresh]
  cases spine with
  | refl =>
    -- no input but the damaged content itself gives a result, and its edge is blocked
    have loop := mergeInputs_rule
      (fun input => mapDamageUp (blockingGraph inputs n c x) damaged rect 0 input (n :: onStack))
      ((blockingGraph inputs n c x).mapInputDamage n)
      (fun _ result memo => memo = (fun _ => none) ∧ Hollow result)
      (inputs n) 0 none (fun _ => none) (fun _ _ _ _ holds => holds) ?_ ⟨rfl, nothing⟩
    · obtain ⟨blank, hollow⟩ := loop
      change Hollow (mergeInputs _ _ (inputs n) 0 none _).1 ∧
        HollowMemo inputs n c (DamageMemo.emplace (mergeInputs _ _ (inputs n) 0 none _).2 n _)
      rw [blank]
      refine ⟨hollow, ?_, fun w result _ hw => ?_⟩
      · simp [DamageMemo.emplace]
      · rcases eq_or_ne w n with rfl | other
        · simp only [DamageMemo.emplace, Function.update_self, Option.some.injEq] at hw
          exact hw ▸ hollow
        · simp [DamageMemo.emplace, other] at hw
    · intro j u result memo hj holds
      obtain ⟨rfl, hollow⟩ := holds
      unfold mapDamageUp
      by_cases same : u = damaged
      · rw [if_pos same]
        subst same
        refine ⟨rfl, hollow.unionResult ?_⟩
        exact empty_mapInputDamage outside' (by simpa using hj) reaches (fun h => proper h.2.symm) _
      · rw [if_neg same]
        exact ⟨rfl, hollow⟩
  | @step _ u _ k rest head spine =>
    have first : some u ∈ inputs v := by rw [head]; exact List.mem_cons_self
    obtain ⟨hollow, inv⟩ := mapDamageUp_spine acyclic reaches edge proper spine (v :: onStack)
      (above u first)
    have later : v ≠ n := by
      rintro rfl
      exact acyclic v k (.step first spine.walk)
    -- the first input settles `n`, and the other inputs come after
    have loop (result : Option (Rect α)) (memo : DamageMemo κ α) (start : Hollow result)
        (inv : HollowMemo inputs n c memo) := mergeInputs_hollow (x := x)
      (fun u => mapDamageUp (blockingGraph inputs n c x) damaged rect (k + 1) u (v :: onStack))
      (fun u memo inv => mapDamageUp_hollow reaches (k + 1) u (v :: onStack) memo inv)
      later rest 1 (fun j => by rw [head, Nat.add_comm, List.getElem?_cons_succ]) result memo inv
      (fun _ => start)
    have entry : (blockingGraph inputs n c x).inputs v = some u :: rest := head
    rw [entry]
    simp only [mergeInputs]
    generalize mapDamageUp (α := α) _ _ _ _ u _ _ = out at hollow inv ⊢
    rcases out with ⟨_ | sub, memo⟩
    · obtain ⟨inv', hollow'⟩ := loop none memo nothing inv
      exact ⟨hollow' outside', inv'.emplace hollow'⟩
    · have id : (blockingGraph inputs n c x).mapInputDamage v 0 sub = sub :=
        mapInputDamage_eq_self (by rw [head]; rfl) (.inr (.inl (outside spine.walk))) sub
      obtain ⟨inv', hollow'⟩ := loop (unionResult none sub) memo
        (nothing.unionResult (hollow sub rfl)) inv
      dsimp only
      rw [id]
      exact ⟨hollow' outside', inv'.emplace hollow'⟩
termination_by k

end Necessary

/-! ## The router -/

section Router

/-- Adding damage keeps what is covered. -/
theorem exists_damageAdd_of_mem {set : List (Damage α)} {e : Damage α} (he : e ∈ set)
    (d : Damage α) :
    ∃ e' ∈ damageAdd set d, e'.object = e.object ∧ e.rect.toSet ⊆ e'.rect.toSet := by
  induction set with
  | nil => exact absurd he List.not_mem_nil
  | cons first set ih =>
    unfold damageAdd
    split
    · rcases List.mem_cons.mp he with rfl | he
      · exact ⟨_, List.mem_cons_self, rfl, toSet_subset_rectUnion_left _ _⟩
      · exact ⟨e, List.mem_cons_of_mem _ he, rfl, subset_rfl⟩
    · rcases List.mem_cons.mp he with rfl | he
      · exact ⟨e, List.mem_cons_self, rfl, subset_rfl⟩
      · obtain ⟨e', he', same, sub⟩ := ih he
        exact ⟨e', List.mem_cons_of_mem _ he', same, sub⟩

/-- Adding damage covers it. -/
theorem exists_damageAdd_self (set : List (Damage α)) (d : Damage α) :
    ∃ e ∈ damageAdd set d, e.object = d.object ∧ d.rect.toSet ⊆ e.rect.toSet := by
  induction set with
  | nil => exact ⟨d, List.mem_cons_self, rfl, subset_rfl⟩
  | cons first set ih =>
    unfold damageAdd
    split
    · next same => exact ⟨_, List.mem_cons_self, same, toSet_subset_rectUnion_right _ _⟩
    · obtain ⟨e, he, same, sub⟩ := ih
      exact ⟨e, List.mem_cons_of_mem _ he, same, sub⟩

variable [DecidableEq κ] {G : ContentGraph κ α} {damaged : κ} {rect : Rect α} {range : TimeRange}
  {maxDepth : ℕ}

/-- The damage of an operator's walk is part of what is reported for its object. -/
theorem exists_routeOperatorDamage {operators : List (OperatorLayer κ)} {object : ObjectId} {op : κ}
    (visible : ⟨object, some op⟩ ∈ operators) (other : op ≠ damaged) {q : Rect α}
    (mapped : (mapDamageUp G damaged rect maxDepth op [] fun _ => none).1 = some q) :
    ∃ d ∈ routeOperatorDamage G (some damaged) rect range maxDepth operators,
      d.object = object ∧ q.toSet ⊆ d.rect.toSet := by
  unfold routeOperatorDamage
  dsimp only
  generalize hstep : (fun (out : List (Damage α)) (op : OperatorLayer κ) => _) = step
  -- what is reported for an object is only added to
  have kept (ops : List (OperatorLayer κ)) (out : List (Damage α)) (e : Damage α) (he : e ∈ out) :
      ∃ d ∈ ops.foldl step out, d.object = e.object ∧ e.rect.toSet ⊆ d.rect.toSet := by
    induction ops generalizing out e with
    | nil => exact ⟨e, he, rfl, subset_rfl⟩
    | cons op ops ih =>
      obtain ⟨e', he', same, sub⟩ : ∃ e' ∈ step out op, e'.object = e.object ∧
          e.rect.toSet ⊆ e'.rect.toSet := by
        subst hstep
        dsimp only
        split
        · exact ⟨e, he, rfl, subset_rfl⟩
        · split
          · exact ⟨e, he, rfl, subset_rfl⟩
          · split
            · exact exists_damageAdd_of_mem he _
            · exact ⟨e, he, rfl, subset_rfl⟩
      obtain ⟨d, hd, same', sub'⟩ := ih _ e' he'
      exact ⟨d, hd, same'.trans same, sub.trans sub'⟩
  obtain ⟨before, after, rfl⟩ := List.append_of_mem visible
  rw [List.foldl_append, List.foldl_cons]
  generalize before.foldl step [] = out
  have here : step out ⟨object, some op⟩ = damageAdd out ⟨object, q, range⟩ := by
    subst hstep
    simp only [if_neg other, mapped]
  rw [here]
  obtain ⟨e, he, same, sub⟩ := exists_damageAdd_self out ⟨object, q, range⟩
  obtain ⟨d, hd, same', sub'⟩ := kept after _ e he
  exact ⟨d, hd, same'.trans same, sub.trans sub'⟩

/-- For every order of the inputs and all damage maps of the edges, the damage reported for an
operator covers what the damage maps to along each of its paths within the budget. -/
def RoutesEveryPath (α : Type*) [LinearOrder α] (inputs : κ → List (Option κ)) (op damaged : κ)
    (maxDepth : ℕ) : Prop :=
  ∀ G : ContentGraph κ α, (∀ n, (G.inputs n).Perm (inputs n)) → G.Covering →
    ∀ (rect : Rect α) (range : TimeRange) (operators : List (OperatorLayer κ)) (object : ObjectId),
      ⟨object, some op⟩ ∈ operators →
      ∀ r k, Along G damaged rect op r k → 0 < k → k ≤ maxDepth →
        ∃ d ∈ routeOperatorDamage G (some damaged) rect range maxDepth operators,
          d.object = object ∧ r.toSet ⊆ d.rect.toSet

/-- Without a content that is cut on one path and admitted on another, every path is covered. -/
theorem routesEveryPath_of_uncut {inputs : κ → List (Option κ)} {op : κ} (acyclic : Acyclic inputs)
    (uncut : ¬ CutReused inputs op damaged maxDepth) :
    RoutesEveryPath α inputs op damaged maxDepth := by
  intro G perm covering rect range operators object visible r k along positive le
  have back {a b : κ} {j : ℕ} (walk : Walk G.inputs a b j) : Walk inputs a b j :=
    walk.perm fun n => (perm n).symm
  have acyclic' : Acyclic G.inputs := fun n k cycle => acyclic n k (back cycle)
  have uncut' : ¬ CutReused G.inputs op damaged maxDepth := by
    rintro ⟨n, c, k, j, len, first, last, edge, proper, second, down, le⟩
    exact uncut ⟨n, c, k, j, len, back first, last, (perm n).subset edge, proper, back second,
      back down, le⟩
  have other : op ≠ damaged := by
    rintro rfl
    obtain ⟨k, rfl⟩ := Nat.exists_eq_succ_of_ne_zero positive.ne'
    exact acyclic' op k along.walk
  obtain ⟨q, mapped, sub⟩ := (mapDamageUp_covers acyclic' covering uncut' maxDepth op []
    (fun _ => none) 0 (Nat.zero_add _) (.refl op) (fun s hs => absurd hs List.not_mem_nil)
    (fun n result kept => by cases kept)).2 r k along (by omega)
  obtain ⟨d, hd, same, sub'⟩ := exists_routeOperatorDamage visible other mapped
  exact ⟨d, hd, same, sub.trans sub'⟩

/-- With one, some order and some maps leave a path uncovered. -/
theorem not_routesEveryPath_of_cut [Nontrivial α] {inputs : κ → List (Option κ)} {op : κ}
    (acyclic : Acyclic inputs) (cut : CutReused inputs op damaged maxDepth) :
    ¬ RoutesEveryPath α inputs op damaged maxDepth := by
  intro routes
  obtain ⟨n, c, k, j, len, first, rfl, edge, proper, second, down, le⟩ := cut
  obtain ⟨order, perm, spine⟩ := exists_headWalk acyclic first
  have acyclic' : Acyclic order := fun n k cycle =>
    acyclic n k (cycle.perm fun n => (perm n).symm)
  have edge' : some c ∈ order n := (perm n).symm.subset edge
  have down' := down.perm perm
  obtain ⟨x, y, less⟩ : ∃ x y : α, x < y := exists_pair_lt α
  have real : ¬ (⟨x, x, y, y⟩ : Rect α).empty = true := by simp [Rect.empty, less]
  have along := along_blockingGraph (x := x) acyclic' real (second.perm perm) edge' down'
  -- the walk reports nothing, or an empty rectangle
  have noOne : ∀ s ∈ ([] : List κ), ∃ k, Walk order s op (k + 1) :=
    fun s hs => absurd hs List.not_mem_nil
  have hollow : Hollow (mapDamageUp (blockingGraph order n c x) damaged ⟨x, x, y, y⟩ _ op []
      fun _ => none).1 :=
    (mapDamageUp_spine acyclic' ⟨len, down'⟩ edge' proper spine [] noOne).1
  obtain ⟨d, hd, -, sub⟩ := routes (blockingGraph order n c x) perm
    (covering_blockingGraph order n c x) ⟨x, x, y, y⟩ .all [⟨1, some op⟩] 1 List.mem_cons_self _ _
    along (by omega) (by omega)
  have blank : d.rect.empty = true := by
    simp only [routeOperatorDamage, List.foldl_cons, List.foldl_nil] at hd
    generalize (mapDamageUp (α := α) _ _ _ _ op _ _).1 = result at hollow hd
    split at hd
    · exact absurd hd List.not_mem_nil
    · rcases result with _ | q
      · exact absurd hd List.not_mem_nil
      · obtain rfl : d = ⟨1, q, .all⟩ := by simpa [damageAdd] using hd
        exact hollow q rfl
  exact Rect.not_empty_of_subset real sub blank

/-- The chain from content 0 to content 65, where content 0 also has content 63 as an input. -/
def shortcutInputs (n : ℕ) : List (Option ℕ) :=
  if n = 0 then [some 1, some 63] else if n < 65 then [some (n + 1)] else []

/-- The chain with the default damage maps. -/
def shortcutGraph : ContentGraph ℕ ℤ := ⟨shortcutInputs, fun _ _ r => r⟩

/-- Inputs of the chain come later on it. -/
theorem lt_of_shortcutInputs {n c : ℕ} (edge : some c ∈ shortcutInputs n) : n < c ∧ c ≤ 65 := by
  unfold shortcutInputs at edge
  split at edge
  · simp at edge
    omega
  · split at edge
    · simp at edge
      omega
    · simp at edge

/-- A path along the chain gets as far as it is long. -/
theorem add_le_of_walk {n m k : ℕ} (walk : Walk shortcutInputs n m k) : n + k ≤ m := by
  induction walk with
  | refl n => exact le_rfl
  | step edge _ ih =>
    have := (lt_of_shortcutInputs edge).1
    omega

/-- The chain is acyclic. -/
theorem acyclic_shortcutInputs : Acyclic shortcutInputs := by
  intro n k cycle
  have := add_le_of_walk cycle
  omega

/-- The chain is walked down one input at a time. -/
theorem walk_shortcutInputs {n : ℕ} : ∀ {k : ℕ}, n + k ≤ 65 → Walk shortcutInputs n (n + k) k
  | 0, _ => .refl n
  | k + 1, le => by
    have last : some (n + k + 1) ∈ shortcutInputs (n + k) := by
      unfold shortcutInputs
      split
      · next zero => simp [zero]
      · rw [if_pos (by omega)]
        exact List.mem_singleton_self _
    exact (walk_shortcutInputs (by omega)).trans (.step last (.refl _))

end Router

end ArbitraryComposer
