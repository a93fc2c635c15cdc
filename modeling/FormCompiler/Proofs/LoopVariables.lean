import FormCompiler.Kernel.Names
import FormCompiler.Proofs.RelabelledCode

/-!
# Loop variables

Behind the name of an index stands nothing or a letter, and behind the name of a list what its only index has, or a number.
So a name can be read in one way only, however deep splits nest, and no two indices of a kernel have the same name. None of
them is like those that are given to other indices. Therefore no two nested loops of a kernel count the same variable.
-/

namespace FormCompiler

open List Build

namespace LoopNames

variable {splits : Concatenation.Splits} {depth : Nat} {i : Index} {is : List Index} {name : String}

/-- Different names, each with a property. -/
def Spelled (P : String → Prop) (l : List (Index × String)) : Prop := (l.map Prod.snd).Nodup ∧ ∀ q ∈ l, P q.2

theorem Spelled.mono {P Q : String → Prop} {l : List (Index × String)} (h : Spelled P l) (imp : ∀ s, P s → Q s) : Spelled Q l :=
  ⟨h.1, fun q hq => imp _ (h.2 q hq)⟩

/-- Names with properties that exclude each other are different. -/
theorem spelled_flatMap {ι : Type} {as : List ι} {f : ι → List (Index × String)} {P : ι → String → Prop}
    (each : ∀ a, Spelled (P a) (f a)) (apart : as.Pairwise fun a b => ∀ s, P a s → ¬ P b s) :
    Spelled (fun s => ∃ a ∈ as, P a s) (as.flatMap f) := by
  refine ⟨?_, fun q hq => ?_⟩
  · rw [map_flatMap, nodup_flatMap]
    refine ⟨fun a _ => (each a).1, apart.imp fun {a b} differ => disjoint_left.2 fun s hs hs' => ?_⟩
    obtain ⟨q, hq, rfl⟩ := mem_map.1 hs
    obtain ⟨r, hr, same⟩ := mem_map.1 hs'
    exact differ _ ((each a).2 q hq) (same ▸ (each b).2 r hr)
  · obtain ⟨a, ha, hq⟩ := mem_flatMap.1 hq
    exact ⟨a, ha, (each a).2 q hq⟩

/-- A name that goes on behind another, not with a digit. -/
def GoesOn (name longer : String) : Prop := ∃ rest, longer.toList = name.toList ++ rest ∧ ∀ c ∈ rest.head?, c.isDigit = false

/-- Numbers in front of something else than a digit can be told apart. -/
theorem GoesOn.number_eq {longer : String} {m n : Nat} (hm : GoesOn (name ++ toString m) longer)
    (hn : GoesOn (name ++ toString n) longer) : m = n := by
  have first {k : Nat} {rest : List Char} (end_ : ∀ c ∈ rest.head?, c.isDigit = false) :
      ((toString k).toList ++ rest).takeWhile Char.isDigit = (toString k).toList := by
    rw [takeWhile_append_of_pos fun c hc => Nat.isDigit_of_mem_toDigits (by decide) (by decide) (Nat.toList_repr ▸ hc)]
    cases rest with
    | nil => simp
    | cons c rest => simp [end_ c rfl]
  obtain ⟨r, same, endM⟩ := hm
  obtain ⟨r', same', endN⟩ := hn
  rw [String.toList_append, append_assoc] at same same'
  have number := congrArg (takeWhile Char.isDigit) (append_cancel_left (same.symm.trans same'))
  rw [first endM, first endN] at number
  simpa using congrArg (fun ds => Nat.ofDigitChars 10 ds 0) number

/-- The names of several lists are different, if none of those that they begin with begins another. -/
theorem spelled_groups {γ : Type} {stems : List γ} (stem : γ → String) (groups : List (List Index))
    (separate : stems.Pairwise fun a b => ¬ (stem a).toList <+: (stem b).toList ∧ ¬ (stem b).toList <+: (stem a).toList)
    (each : ∀ is name, Spelled (fun s => name.toList <+: s.toList) (ofIndices splits depth is name)) :
    Spelled (fun s => ∃ a ∈ stems, (stem a).toList <+: s.toList)
      ((groups.zip stems).flatMap fun g => ofIndices splits depth g.1 (stem g.2)) := by
  have part : ((groups.zip stems).map Prod.snd).Sublist stems := by
    rw [zip_eq_zip_take_min, map_snd_zip (by simp)]
    exact take_sublist ..
  refine (spelled_flatMap (fun g : List Index × γ => each g.1 (stem g.2)) ?_).mono ?_
  · refine (pairwise_map.1 (separate.sublist part)).imp fun differ s hs hs' => ?_
    rcases prefix_or_prefix_of_prefix hs hs' with short | short
    · exact differ.1 short
    · exact differ.2 short
  · rintro s ⟨g, hg, starts⟩
    exact ⟨g.2, (of_mem_zip hg).2, starts⟩

theorem spelled_ofIndices (each : ∀ i name, Spelled (GoesOn name) (ofIndex splits depth i name)) (is : List Index)
    (name : String) : Spelled (fun s => name.toList <+: s.toList) (ofIndices splits depth is name) := by
  rw [ofIndices.eq_def]
  split
  · refine (each _ _).mono ?_
    rintro s ⟨rest, same, -⟩
    exact ⟨rest, same.symm⟩
  · refine (spelled_flatMap (fun p : Index × Nat => each p.1 (name ++ toString p.2)) ?_).mono ?_
    · have positions : (is.zipIdx.map Prod.snd).Nodup := by
        rw [zipIdx_map_snd]
        exact nodup_range'
      exact (pairwise_map.1 positions).imp fun differ s hs hs' => differ (hs.number_eq hs')
    · rintro s ⟨p, -, rest, same, -⟩
      rw [same, String.toList_append, append_assoc]
      exact prefix_append ..

theorem spelled_ofIndex (depth : Nat) (i : Index) (name : String) : Spelled (GoesOn name) (ofIndex splits depth i name) := by
  have letters : letters.Nodup ∧ letters.all (!·.isDigit) := by decide
  have single {i : Index} {name : String} : Spelled (GoesOn name) [(i, name)] := by simp [Spelled, GoesOn]
  induction depth generalizing i name with
  | zero =>
    rw [ofIndex]
    exact single
  | succ depth ih =>
    rw [ofIndex]
    cases splits.lookup i with
    | none => exact single
    | some parts =>
      have parts := spelled_groups name.push parts (letters.1.imp fun differ => by
        simp [String.toList_push, prefix_append_right_inj, differ, differ.symm]) (spelled_ofIndices ih)
      refine ⟨nodup_cons.2 ⟨fun mem => ?_, parts.1⟩, forall_mem_cons.2 ⟨single.2 _ mem_cons_self, fun q hq => ?_⟩⟩
      · obtain ⟨q, hq, same⟩ := mem_map.1 mem
        obtain ⟨c, -, starts⟩ := parts.2 q hq
        have longer := starts.length_le
        rw [same, String.toList_push, length_append] at longer
        exact absurd longer (by simp)
      · obtain ⟨c, hc, rest, same⟩ := parts.2 q hq
        exact ⟨c :: rest, by simp [← same], by simpa using all_eq_true.1 letters.2 c hc⟩

/-- Each index of a list has a name. -/
theorem mem_ofIndices (hi : i ∈ is) : ∃ given, (i, given) ∈ ofIndices splits depth is name := by
  have own (given : String) : (i, given) ∈ ofIndex splits depth i given := by
    cases depth <;> simp [ofIndex]
  rw [ofIndices.eq_def]
  split
  · rw [mem_singleton.1 hi] at own ⊢
    exact ⟨name, own name⟩
  · obtain ⟨n, hn⟩ := getElem?_of_mem hi
    exact ⟨_, mem_flatMap.2 ⟨(i, n), mem_zipIdx_iff_getElem?.2 hn, own _⟩⟩

theorem spelled_ofKernel (splits : Concatenation.Splits) (points : List Index) (arguments : List (List Index)) :
    Spelled (fun s => ∃ stem ∈ ["ip", "j", "k"], stem.toList <+: s.toList) (ofKernel splits points arguments) :=
  spelled_groups id (points :: arguments) (by simp) (spelled_ofIndices (spelled_ofIndex _))

end LoopNames

/-- Loops are over different indices each, whatever their order. -/
theorem Program.yields_tree {K : Type} [Scalar K] (assignments : List (Expr K × Expr K)) (outer : List Index) (removeZeros : Bool) :
    (compile assignments outer removeZeros).Yields fun p => ∀ s ∈ p.tree, s.Unrepeated [] := by
  have sorted (order : IndexOrder) (is : List Index) : (order.sort is).Yields fun js => js.Perm is := by
    refine Yields.bind (Q := fun keyed => keyed.map Prod.snd = is) ?_ fun keyed same => yields_pure ?_
    · refine (Yields.ofEnsures fun extent => ensures_mapM (S := fun i (p : Nat × Index) => p.2 = i) fun i _ => ?_).mono fun keyed found => ?_
      · split
        · exact ensures_pure rfl
        · exact ensures_throw
      · rw [← forall₂_eq_eq_eq, forall₂_map_left_iff]
        exact found.flip
    · exact same ▸ (mergeSort_perm _ _).map _
  unfold compile
  refine (yields_any _).bind fun ops _ => yields_ite (fun _ => yields_throw) fun _ => ?_
  refine Yields.bind (Q := fun tree => ∀ s ∈ tree, s.Unrepeated []) ?_ fun tree unrepeated =>
    (yields_any _).bind fun placement _ => yields_pure unrepeated
  refine Yields.bind (yields_iff_meets.2 (meets_mapM (R := fun p => p.1.Nodup) fun op _ => yields_iff_meets.1 ?_)) fun ps once =>
    yields_pure (Statement.unrepeated_gather once)
  exact (sorted _ op.loopExpr.freeIndices).bind fun loops perm => yields_pure (perm.nodup_iff.2 (Expr.nodup_freeIndices _))

namespace Code

/-- The indices of a kernel have different names, none of which is given to other indices, however deep splits nest. So the loops
around each place of the code count different variables. -/
theorem loopVariables_apart {K : Type} [Scalar K] [LawfulSame K] (splits : Concatenation.Splits) (points : List Index)
    (arguments : List (List Index)) :
    (∀ is ∈ points :: arguments.take 2, ∀ i ∈ is, ∃ name, (i, name) ∈ LoopNames.ofKernel splits points arguments) ∧
    ((LoopNames.ofKernel splits points arguments).map Prod.snd).Nodup ∧
    (∀ q ∈ LoopNames.ofKernel splits points arguments, ∀ n : Nat, q.2 ≠ s!"i_{n}") ∧
    ∀ (assignments : List (Expr K × Expr K)) (order : List Index) (removeZeros : Bool) (format : NumberFormat K)
      (roots : List (Expr K)) (marked : List Index),
      (Program.compile assignments order removeZeros >>= fun program =>
        ofProgram program format (LoopNames.ofKernel splits points arguments) roots marked).Yields
          fun code => ∀ chain ∈ code.counters, chain.Nodup := by
  have unnumbered : ∀ q ∈ LoopNames.ofKernel splits points arguments, ∀ n : Nat, q.2 ≠ s!"i_{n}" := by
    intro q hq n same
    obtain ⟨stem, hstem, starts⟩ := (LoopNames.spelled_ofKernel splits points arguments).2 q hq
    have numbered : q.2.toList = 'i' :: '_' :: (toString n).toList := by
      rw [same, String.toList_append]
      rfl
    rw [numbered] at starts
    simp only [mem_cons, not_mem_nil, or_false] at hstem
    rcases hstem with rfl | rfl | rfl <;> simp at starts
  have apart := (LoopNames.spelled_ofKernel splits points arguments).1
  refine ⟨fun is his i hi => ?_, apart, unnumbered, fun assignments order removeZeros format roots marked => ?_⟩
  · have few : (points :: arguments.take 2).length ≤ ["ip", "j", "k"].length := by simp
    rw [← map_fst_zip few] at his
    obtain ⟨g, hg, rfl⟩ := mem_map.1 his
    obtain ⟨name, named⟩ : ∃ name, (i, name) ∈ LoopNames.ofIndices splits splits.length g.1 g.2 := LoopNames.mem_ofIndices hi
    have all : LoopNames.ofKernel splits points arguments = ((points :: arguments.take 2).zip ["ip", "j", "k"]).flatMap
        fun g => LoopNames.ofIndices splits splits.length g.1 g.2 := by
      rcases arguments with _ | ⟨a, _ | ⟨b, _⟩⟩ <;> simp [LoopNames.ofKernel]
    exact ⟨name, all ▸ mem_flatMap.2 ⟨g, hg, named⟩⟩
  · refine (Program.yields_tree assignments order removeZeros).bind fun program once s code s' run => ?_
    have self : Agree s s _ _ _ :=
      agree_ofProgram (p := 1) (fun _ => rfl) program format (LoopNames.ofKernel splits points arguments) roots marked
    cases self with
    | returns first _ h =>
      cases first.symm.trans run
      exact h.2 ⟨⟨apart, fun hq same => absurd same (unnumbered _ hq _), nofun⟩, once⟩
    | fails first _ => cases first.symm.trans run

/-- An index that was split into two lists, next to one that was not. -/
theorem loopVariables_apart_nested :
    (LoopNames.ofKernel [(⟨1⟩, [[⟨2⟩, ⟨3⟩], [⟨4⟩]])] [⟨0⟩] [[⟨1⟩]]).map Prod.snd = ["ip", "j", "ja0", "ja1", "jb"] ∧
      ["ip", "j", "ja0", "ja1", "jb"].Nodup := by
  have names : (LoopNames.ofKernel [(⟨1⟩, [[⟨2⟩, ⟨3⟩], [⟨4⟩]])] [⟨0⟩] [[⟨1⟩]]).map Prod.snd = ["ip", "j", "ja0", "ja1", "jb"] := by
    have letters : LoopNames.letters = 'a' :: 'b' :: LoopNames.letters.drop 2 := by decide
    rw [LoopNames.ofKernel]
    simp only [zip_cons_cons, zip_nil_left, flatMap_cons, flatMap_nil]
    rw [LoopNames.ofIndices, LoopNames.ofIndices, length_singleton, LoopNames.ofIndex, LoopNames.ofIndex, letters]
    simp [LoopNames.ofIndices, LoopNames.ofIndex, lookup]
    rfl
  exact ⟨names, names ▸ (loopVariables_apart (K := ℚ) _ _ _).2.1⟩

end Code

end FormCompiler
