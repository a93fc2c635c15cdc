import FormCompiler.Proofs.Schedule
import FormCompiler.Schedule.Program

/-!
# Temporaries are there when they are read

Computations of scalars may be dropped from a schedule, and are then carried out where they are read. What is read
instead are the temporaries below them. All that is done for a temporary comes before all that reads it, and no node
that binds indices stands between an operation and the temporaries that it reads.
-/

namespace FormCompiler

open FormCompiler.Expr List

/-! ## Order in a list -/

section Before

variable {α : Type} {l : List α} {a b c : α}

/-- One member stands before another. -/
def Before (l : List α) (a b : α) : Prop := [a, b].Sublist l

theorem Before.left (h : Before l a b) : a ∈ l := h.subset (by simp)

theorem Before.right (h : Before l a b) : b ∈ l := h.subset (by simp)

theorem before_iff : Before l a b ↔ ∃ l₁ l₂, l = l₁ ++ l₂ ∧ a ∈ l₁ ∧ b ∈ l₂ := by
  constructor
  · intro h
    obtain ⟨l₁, l₂, rfl, ha, hb⟩ := cons_sublist_iff.1 h
    exact ⟨l₁, l₂, rfl, ha, singleton_sublist.1 hb⟩
  · rintro ⟨l₁, l₂, rfl, ha, hb⟩
    exact (singleton_sublist.2 ha).append (singleton_sublist.2 hb)

theorem before_append_cons {l₁ l₂ : List α} (h : a ∈ l₁) : Before (l₁ ++ b :: l₂) a b :=
  before_iff.2 ⟨l₁, b :: l₂, rfl, h, mem_cons_self⟩

theorem before_or_before (ha : a ∈ l) (hb : b ∈ l) (ne : a ≠ b) : Before l a b ∨ Before l b a := by
  obtain ⟨l₁, l₂, rfl⟩ := append_of_mem ha
  rcases mem_append.1 hb with hb | hb
  · exact .inr (before_iff.2 ⟨l₁, a :: l₂, rfl, hb, mem_cons_self⟩)
  · refine .inl (before_iff.2 ⟨l₁ ++ [a], l₂, by simp, by simp, ?_⟩)
    exact (mem_cons.1 hb).resolve_left (Ne.symm ne)

theorem Before.trans (nodup : l.Nodup) (hab : Before l a b) (hbc : Before l b c) : Before l a c := by
  obtain ⟨l₁, l₂, rfl, ha, hb⟩ := before_iff.1 hab
  obtain ⟨m₁, m₂, eq, hb', hc⟩ := before_iff.1 hbc
  have disjoint := disjoint_of_nodup_append nodup
  refine before_iff.2 ⟨l₁, l₂, rfl, ha, ?_⟩
  rcases append_eq_append_iff.1 eq with ⟨r, rfl, rfl⟩ | ⟨r, rfl, rfl⟩
  · exact mem_append_right _ hc
  · exact absurd hb (disjoint (mem_append_left _ hb'))

theorem Before.asymm (nodup : l.Nodup) (h : Before l a b) : ¬ Before l b a := by
  intro h'
  obtain ⟨l₁, l₂, rfl, ha, ha'⟩ := before_iff.1 (h.trans nodup h')
  exact disjoint_of_nodup_append nodup ha ha'

/-- What stands between two members of a segment is a member of it. -/
theorem Before.mem_of_infix {s : List α} (hac : Before l a c) (nodup : l.Nodup) (part : s <:+: l) (ha : a ∈ s)
    (hb : b ∈ s) (hcb : Before l c b) : c ∈ s := by
  obtain ⟨l₁, l₂, rfl⟩ := part
  rcases mem_append.1 hac.right with hc | hc
  · rcases mem_append.1 hc with hc | hc
    · refine absurd hac (Before.asymm nodup (before_iff.2 ⟨l₁, s ++ l₂, by simp, hc, ?_⟩))
      exact mem_append_left l₂ ha
    · exact hc
  · refine absurd hcb (Before.asymm nodup (before_iff.2 ⟨l₁ ++ s, l₂, rfl, ?_, hc⟩))
    exact mem_append_right l₁ hb

theorem Before.filter {p : α → Bool} (h : Before l a b) (ha : p a = true) (hb : p b = true) : Before (l.filter p) a b := by
  have := List.Sublist.filter p h
  simpa [Before, ha, hb] using this

end Before

variable {K : Type} [Scalar K] [LawfulBEq (Expr K)]

/-! ## Below an operation -/

namespace Expr

/-- Does the node bind indices? -/
def isBinder : Expr K → Bool
  | .componentTensor _ _ | .indexSum _ _ => true
  | _ => false

/-- The temporaries that are met on the way down from an expression. -/
inductive Meets (T : List (Expr K)) : Expr K → Expr K → Prop where
  | here {t : Expr K} : t ∈ T → Meets T t t
  | under {e c t : Expr K} : e ∉ T → c ∈ e.children → Meets T c t → Meets T e t

/-- No indices are bound on the way down to temporaries. -/
inductive Plain (T : List (Expr K)) : Expr K → Prop where
  | temporary {e : Expr K} : e ∈ T → Plain T e
  | node {e : Expr K} : e ∉ T → e.isBinder = false → (∀ c ∈ e.children, Plain T c) → Plain T e

variable {e : Expr K}

section

omit [Scalar K] [LawfulBEq (Expr K)]

theorem Meets.mem {T : List (Expr K)} {t : Expr K} (h : Meets T e t) : t ∈ T := by
  induction h with
  | here ht => exact ht
  | under _ _ _ ih => exact ih

theorem source_eq_self (h : ∀ t slots, e ≠ .indexed t slots) : e.source = e := by
  cases e with
  | indexed t slots => exact absurd rfl (h t slots)
  | _ => rw [source]; simp

theorem sizeOf_source_le (e : Expr K) : sizeOf e.source ≤ sizeOf e := by
  cases e with
  | indexed t slots =>
    rw [source]
    have := sizeOf_source_le t
    simp only [indexed.sizeOf_spec]
    omega
  | _ => rw [source]; simp
termination_by sizeOf e

end

end Expr

namespace Schedule

variable {roots direct : List (Expr K)} {staged ops : List (Operation K)}

variable {x : Expr K} {p o : Operation K}

theorem Scheduled.mem_of_mem_providers (h : Scheduled roots direct staged ops) (hx : Reachable roots x)
    (out : x ∉ direct) (hp : p ∈ x.providers) : p ∈ ops := by
  rw [← h.provided hx out] at hp
  exact (mem_filter.1 hp).1

theorem Scheduled.mem_providers (h : Scheduled roots direct staged ops) (hp : p ∈ ops)
    (about : p.subject? = some x) : Reachable roots x ∧ x ∉ direct ∧ p ∈ x.providers := by
  have reach := h.reachable hp about
  have here : p ∈ ops.filter fun op => op.subject? = some x := mem_filter.2 ⟨hp, by simpa using about⟩
  by_cases mem : x ∈ direct
  · rw [h.unprovided reach mem] at here
    cases here
  · rw [h.provided reach mem] at here
    exact ⟨reach, mem, here⟩

omit [Scalar K] [LawfulBEq (Expr K)] in
theorem nodup_providers (x : Expr K) : x.providers.Nodup := by
  unfold providers
  split
  · simp
  · split <;> simp

/-- What is done for a node is done once. -/
theorem Scheduled.count_le_one (h : Scheduled roots direct staged ops) (about : o.subject? = some x) : ops.count o ≤ 1 := by
  by_cases mem : o ∈ ops
  · obtain ⟨reach, out, -⟩ := h.mem_providers mem about
    have := nodup_iff_count_le_one.1 (h.provided reach out ▸ nodup_providers x) o
    rwa [count_filter (by simpa using about)] at this
  · rw [count_eq_zero_of_not_mem mem]
    exact Nat.zero_le 1

/-- What is given is given as often as it is staged. -/
theorem Scheduled.count_give (h : Scheduled roots direct staged ops) (about : o.subject? = none) :
    ops.count o = staged.count o := by
  rw [← h.gives.count_eq, count_filter (by simpa using about)]

theorem Scheduled.nodup (h : Scheduled roots direct staged ops) (distinct : staged.Nodup) : ops.Nodup := by
  refine nodup_iff_count_le_one.2 fun o => ?_
  cases about : o.subject? with
  | none => exact h.count_give about ▸ nodup_iff_count_le_one.1 distinct o
  | some x => exact h.count_le_one about

/-- What an operation refers to is smaller than what it is about. -/
theorem Scheduled.source_ne (h : Scheduled roots direct staged ops) (ho : o ∈ ops)
    (hx : x ∈ o.refs) : o.subject? ≠ some x.source := by
  intro about
  have small := sizeOf_source_le x
  cases o with
  | evaluate e =>
    cases about
    have := sizeOf_lt_of_mem_children hx
    omega
  | accumulate s =>
    obtain ⟨-, -, provided⟩ := h.mem_providers ho rfl
    have sum : s.isSum = true := by
      unfold providers at provided
      split at provided
      · assumption
      · split at provided <;> simp at provided
    cases s with
    | indexSum body bs =>
      obtain rfl : x = body := by simpa [Operation.refs, Operation.summand] using hx
      simp only [Operation.subject?, Option.some.injEq] at about
      rw [← about, Expr.indexSum.sizeOf_spec] at small
      omega
    | _ => simp [isSum] at sum
  | initialise s => cases hx
  | hold e => cases hx
  | _ => cases about

/-- All that is done for what an operation refers to comes before it. -/
theorem Scheduled.before (h : Scheduled roots direct staged ops) (ho : o ∈ ops)
    (hx : x ∈ o.refs) (hp : p ∈ ops) (about : p.subject? = some x.source) : Before ops p o := by
  have ne : p ≠ o := fun same => h.source_ne ho hx (same ▸ about)
  refine (before_or_before hp ho ne).resolve_right fun wrong => ?_
  exact pairwise_iff_forall_sublist.1 h.ordered wrong x hx about

end Schedule

/-- Operations with the temporaries that they keep: each once, those for a sum in their order, and all that is done for
a temporary before all that reads it. -/
structure Arranged (T : List (Expr K)) (ops : List (Operation K)) : Prop where
  nodup : ops.Nodup
  temporary {t : Expr K} : t ∈ T ↔ .evaluate t ∈ ops ∨ .accumulate t ∈ ops
  sum {o : Operation K} {s : Expr K} : o ∈ ops → o = .initialise s ∨ o = .accumulate s ∨ o = .hold s →
    s.isSum ∧ Before ops (.initialise s) (.accumulate s) ∧ Before ops (.accumulate s) (.hold s)
  evaluated {e : Expr K} : .evaluate e ∈ ops → e.isSum = false ∧ e.isComputed = true
  plain {o : Operation K} {x : Expr K} : o ∈ ops → x ∈ o.refs → x.Plain T
  before {o p : Operation K} {x t : Expr K} : o ∈ ops → x ∈ o.refs → x.Meets T t → p ∈ ops → p.subject? = some t →
    Before ops p o

omit [Scalar K] [LawfulBEq (Expr K)] in
theorem Arranged.computed {T : List (Expr K)} {ops : List (Operation K)} (h : Arranged T ops) :
    ∀ t ∈ T, t.isSum = true ∨ t.isComputed = true := by
  intro t ht
  rcases h.temporary.1 ht with mem | mem
  · exact .inr (h.evaluated mem).2
  · exact .inl (h.sum mem (.inr (.inl rfl))).1

namespace Schedule

variable {roots direct : List (Expr K)} {staged ops : List (Operation K)}

variable {x : Expr K}

omit [Scalar K] [LawfulBEq (Expr K)] in
theorem eq_of_mem_providers {p : Operation K} (hp : p ∈ x.providers) :
    x.isSum ∧ (p = .initialise x ∨ p = .accumulate x ∨ p = .hold x) ∨ x.isSum = false ∧ x.isComputed ∧ p = .evaluate x := by
  unfold providers at hp
  split at hp
  · rename_i sum
    exact .inl ⟨sum, by simpa using hp⟩
  · rename_i sum
    split at hp
    · rename_i computed
      exact .inr ⟨by simpa using sum, computed, by simpa using hp⟩
    · cases hp

/-- Nodes that are not given directly: what they refer to is reachable, and is not given directly either. -/
structure Apart (roots direct : List (Expr K)) (staged : List (Operation K)) : Prop where
  unread {x p : Expr K} : x ∈ direct → Reachable roots p → x ∉ p.children
  given {o : Operation K} {x : Expr K} : o ∈ staged → x ∈ o.refs → Reachable roots x ∧ x ∉ direct

theorem Scheduled.refs_reachable (h : Scheduled roots direct staged ops) (apart : Apart roots direct staged)
    {o : Operation K} (ho : o ∈ ops) (hx : x ∈ o.refs) : Reachable roots x ∧ x ∉ direct := by
  have child : ∀ {p c : Expr K}, Reachable roots p → c ∈ p.children → Reachable roots c ∧ c ∉ direct :=
    fun hp hc => ⟨.child hp hc, fun mem => apart.unread mem hp hc⟩
  cases about : o.subject? with
  | none =>
    exact apart.given (h.gives.mem_iff.1 (mem_filter.2 ⟨ho, by simpa using about⟩)) hx
  | some e =>
    obtain ⟨reach, -, provided⟩ := h.mem_providers ho about
    rcases eq_of_mem_providers provided with ⟨sum, rfl | rfl | rfl⟩ | ⟨-, -, rfl⟩
    · cases hx
    · cases e with
      | indexSum body bs => exact child reach (by simpa [Operation.refs, Operation.summand, children] using hx)
      | _ => simp [isSum] at sum
    · cases hx
    · exact child reach hx

/-- What is kept of a schedule when computations of scalars are dropped. -/
structure Kept (roots direct : List (Expr K)) (ops : List (Operation K)) (keep : Operation K → Bool) (T : List (Expr K)) :
    Prop where
  scalar {o : Operation K} : keep o = false → ∃ e, o = .evaluate e ∧ e.shape = []
  tensor {body : Expr K} {bs : List Binder} : Reachable roots (.componentTensor body bs) → bs ≠ []
  temporary {t : Expr K} : t ∈ T ↔ .evaluate t ∈ ops.filter keep ∨ .accumulate t ∈ ops.filter keep

section Kept

variable {keep : Operation K → Bool} {T : List (Expr K)}

variable {x : Expr K}

theorem Kept.mem_of_isSum (h : Scheduled roots direct staged ops) (kept : Kept roots direct ops keep T)
    (hx : Reachable roots x) (out : x ∉ direct) (sum : x.isSum) : x ∈ T := by
  have provided : Operation.accumulate x ∈ ops := h.mem_of_mem_providers hx out (by simp [providers, sum])
  refine kept.temporary.2 (.inr (mem_filter.2 ⟨provided, ?_⟩))
  by_contra dropped
  obtain ⟨e, same, -⟩ := kept.scalar (by simpa using dropped)
  cases same

theorem Kept.plain (h : Scheduled roots direct staged ops) (apart : Apart roots direct staged)
    (kept : Kept roots direct ops keep T) {x : Expr K} (hx : Reachable roots x) (out : x ∉ direct) : x.Plain T := by
  by_cases mem : x ∈ T
  · exact .temporary mem
  · refine .node mem ?_ fun c hc =>
      have := sizeOf_lt_of_mem_children hc
      Kept.plain h apart kept (.child hx hc) fun direct => apart.unread direct hx hc
    cases x with
    | indexSum body bs => exact absurd (kept.mem_of_isSum h hx out rfl) mem
    | componentTensor body bs =>
      have provided : Operation.evaluate (.componentTensor body bs) ∈ ops :=
        h.mem_of_mem_providers hx out (by simp [providers, isSum, isComputed])
      refine absurd (kept.temporary.2 (.inl (mem_filter.2 ⟨provided, ?_⟩))) mem
      by_contra dropped
      obtain ⟨e, same, scalar⟩ := kept.scalar (by simpa using dropped)
      cases same
      exact kept.tensor hx (by simpa [Expr.shape] using scalar)
    | _ => rfl
termination_by sizeOf x

/-- What is done for a temporary comes before an operation from which it is met. -/
theorem Kept.meets_before (h : Scheduled roots direct staged ops) (apart : Apart roots direct staged)
    (nodup : ops.Nodup) (kept : Kept roots direct ops keep T) {o : Operation K} {t : Expr K} (meets : x.Meets T t)
    (hx : Reachable roots x) (out : x ∉ direct)
    (near : ∀ p ∈ ops, p.subject? = some x.source → Before ops p o) {p : Operation K} (hp : p ∈ ops)
    (about : p.subject? = some t) : Before ops p o := by
  induction meets generalizing o with
  | here mem =>
    refine near p hp ?_
    rw [source_eq_self, about]
    intro u slots same
    subst same
    -- nothing is done for an indexing itself
    obtain ⟨-, -, provided⟩ := h.mem_providers hp about
    simp [providers, isSum, isComputed] at provided
  | @under x c t absent hc _ ih =>
    have next : ∀ o' : Operation K, (∀ q ∈ ops, q.subject? = some c.source → Before ops q o') → Before ops p o' :=
      fun o' near' => ih (.child hx hc) (fun direct => apart.unread direct hx hc) near' about
    by_cases computed : x.isComputed = true ∧ x.isSum = false
    · have provided : Operation.evaluate x ∈ ops :=
        h.mem_of_mem_providers hx out (by simp [providers, computed])
      have first := near _ provided (by
        rw [source_eq_self]
        · rfl
        · rintro u slots rfl
          simp [isComputed] at computed)
      exact (next _ fun q hq aboutq => h.before provided hc hq aboutq).trans nodup first
    · refine next o fun q hq aboutq => ?_
      cases x with
      | indexed u slots =>
        obtain rfl : c = u := by simpa [children] using hc
        exact near q hq (by rw [aboutq, source])
      | access name shape dims =>
        obtain rfl : c = .var name shape := by simpa [children] using hc
        obtain ⟨-, -, provided⟩ := h.mem_providers hq aboutq
        rw [source_eq_self (by simp)] at provided
        simp [providers, isSum, isComputed] at provided
      | indexSum body bs => exact absurd (kept.mem_of_isSum h hx out rfl) absent
      | zero _ => simp [children] at hc
      | identity _ => simp [children] at hc
      | literal _ _ => simp [children] at hc
      | var _ _ => simp [children] at hc
      | _ => simp [isComputed, isSum] at computed

end Kept

/-- The operations that are kept of a complete schedule are arranged. -/
theorem Scheduled.arranged (h : Scheduled roots direct staged ops) (distinct : staged.Nodup)
    (apart : Apart roots direct staged) {keep : Operation K → Bool} {T : List (Expr K)}
    (kept : Kept roots direct ops keep T) : Arranged T (ops.filter keep) := by
  have nodup := h.nodup distinct
  have sums : ∀ o, (∀ e, o ≠ .evaluate e) → keep o = true := by
    intro o other
    by_contra dropped
    obtain ⟨e, same, -⟩ := kept.scalar (by simpa using dropped)
    exact other e same
  refine ⟨nodup.filter _, kept.temporary, ?_, ?_, ?_, ?_⟩
  · intro o s ho which
    have mem := (mem_filter.1 ho).1
    have about : o.subject? = some s := by rcases which with rfl | rfl | rfl <;> rfl
    obtain ⟨reach, out, provided⟩ := h.mem_providers mem about
    have sum : s.isSum := by
      rcases eq_of_mem_providers provided with ⟨sum, -⟩ | ⟨-, -, rfl⟩
      · exact sum
      · rcases which with h | h | h <;> cases h
    have order : [Operation.initialise s, .accumulate s, .hold s].Sublist ops := by
      have : s.providers = [.initialise s, .accumulate s, .hold s] := by simp [providers, sum]
      rw [← this, ← h.provided reach out]
      exact filter_sublist
    refine ⟨sum, Before.filter ?_ (sums _ (by simp)) (sums _ (by simp)),
      Before.filter ?_ (sums _ (by simp)) (sums _ (by simp))⟩
    · exact List.Sublist.trans (by simp) order
    · exact List.Sublist.trans (by simp) order
  · intro e he
    obtain ⟨-, -, provided⟩ := h.mem_providers (mem_filter.1 he).1 rfl
    rcases eq_of_mem_providers provided with ⟨-, h | h | h⟩ | ⟨sum, computed, -⟩
    · cases h
    · cases h
    · cases h
    · exact ⟨sum, computed⟩
  · intro o x ho hx
    obtain ⟨reach, out⟩ := h.refs_reachable apart (mem_filter.1 ho).1 hx
    exact kept.plain h apart reach out
  · intro o p x t ho hx meets hp about
    obtain ⟨mem, keepo⟩ := mem_filter.1 ho
    obtain ⟨memp, keepp⟩ := mem_filter.1 hp
    obtain ⟨reach, out⟩ := h.refs_reachable apart mem hx
    refine Before.filter ?_ keepp keepo
    exact kept.meets_before h apart nodup meets reach out (fun q hq aboutq => h.before mem hx hq aboutq) memp about

/-! ## Staged assignments -/

section Staged

variable {assignments : List (Expr K × Expr K)}

section

omit [LawfulBEq (Expr K)]

theorem stagedOp_cases (counts : RefCount K) (a : Expr K × Expr K) :
    isDirect counts a = true ∧ stagedOp counts a = .giveSum a.1 a.2 ∨
      isDirect counts a = false ∧ stagedOp counts a = .give a.1 a.2 := by
  unfold stagedOp
  cases h : isDirect counts a with
  | true => exact .inl ⟨rfl, rfl⟩
  | false => exact .inr ⟨rfl, rfl⟩

theorem stagedOp_injective (counts : RefCount K) : Function.Injective (stagedOp counts) := by
  intro a b same
  rcases stagedOp_cases counts a with ⟨-, ha⟩ | ⟨-, ha⟩ <;> rcases stagedOp_cases counts b with ⟨-, hb⟩ | ⟨-, hb⟩
  · simpa [ha, hb, ← Prod.ext_iff] using same
  · simp [ha, hb] at same
  · simp [ha, hb] at same
  · simpa [ha, hb, ← Prod.ext_iff] using same

theorem nodup_staged (counts : RefCount K) (nodup : assignments.Nodup) :
    (assignments.map (stagedOp counts)).Nodup :=
  nodup.map (stagedOp_injective counts)

end

/-- An expression that is assigned once has one assignment. -/
theorem eq_of_count_eq_one {e : Expr K} (once : (assignments.map Prod.snd).count e = 1) {a b : Expr K × Expr K}
    (ha : a ∈ assignments) (hb : b ∈ assignments) (hae : a.2 = e) (hbe : b.2 = e) : a = b := by
  have single : (assignments.filter fun p => p.2 == e).length = 1 := by
    rw [List.count, countP_map, countP_eq_length_filter] at once
    exact once
  obtain ⟨c, only⟩ := length_eq_one_iff.1 single
  have here : ∀ p ∈ assignments, p.2 = e → p = c := fun p hp he => by
    simpa [only] using (mem_filter.2 ⟨hp, by simp [he]⟩ : p ∈ assignments.filter fun p => p.2 == e)
  exact (here a ha hae).trans (here b hb hbe).symm

/-- Sums that are added up in variables are read nowhere else. -/
theorem apart (assignments : List (Expr K × Expr K)) :
    Apart (assignments.map Prod.snd) (directs assignments) (stagedOps assignments) := by
  have unread : ∀ {x p}, x ∈ directs assignments → Reachable (assignments.map Prod.snd) p → x ∉ p.children := by
    intro x p direct reach mem
    have none := (mem_directSums direct).2.2
    have := le_sum_of_mem (mem_map_of_mem (f := fun p => p.children.count x) (mem_traversal.2 reach))
    have := count_pos_iff.2 mem
    omega
  refine ⟨unread, fun {o x} ho hx => ?_⟩
  obtain ⟨a, ha, rfl⟩ := mem_map.1 ho
  have root : Reachable (assignments.map Prod.snd) a.2 := .root (mem_map_of_mem ha)
  rcases stagedOp_cases _ a with ⟨direct, op⟩ | ⟨indirect, op⟩
  · rw [op] at hx
    obtain ⟨body, bs, sum⟩ : ∃ body bs, a.2 = .indexSum body bs := by
      simp only [isDirect, Bool.and_eq_true] at direct
      cases h : a.2 <;> simp_all [isSum]
    have child : x ∈ a.2.children := by simpa [Operation.refs, Operation.summand, children, sum] using hx
    exact ⟨.child root child, fun mem => unread mem root child⟩
  · rw [op] at hx
    obtain rfl : x = a.2 := by simpa [Operation.refs] using hx
    refine ⟨root, fun mem => ?_⟩
    -- the expression is assigned once, and that assignment is not added up in its variable
    obtain ⟨b, hb, same⟩ := mem_map.1 mem
    obtain ⟨memb, direct⟩ := mem_filter.1 hb
    obtain rfl := eq_of_count_eq_one (mem_directSums mem).2.1 memb ha same rfl
    simp [indirect] at direct

section Gives

variable {ops : List (Operation K)} {counts : RefCount K}
  (gives : (ops.filter fun op => op.subject? = none).Perm (assignments.map (stagedOp counts))) {v e : Expr K}
include gives

omit [LawfulBEq (Expr K)] in
theorem mem_of_give (h : .give v e ∈ ops) : (v, e) ∈ assignments := by
  obtain ⟨a, ha, staged⟩ := mem_map.1 (gives.mem_iff.1 (mem_filter.2 ⟨h, by simp [Operation.subject?]⟩))
  rcases stagedOp_cases counts a with ⟨-, op⟩ | ⟨-, op⟩
  · simp [op] at staged
  · rw [op] at staged
    cases staged
    exact ha

omit [LawfulBEq (Expr K)] in
theorem mem_of_giveSum (h : .giveSum v e ∈ ops) : (v, e) ∈ assignments ∧ isDirect counts (v, e) = true := by
  obtain ⟨a, ha, staged⟩ := mem_map.1 (gives.mem_iff.1 (mem_filter.2 ⟨h, by simp [Operation.subject?]⟩))
  rcases stagedOp_cases counts a with ⟨direct, op⟩ | ⟨-, op⟩
  · rw [op] at staged
    cases staged
    exact ⟨ha, direct⟩
  · simp [op] at staged

end Gives

end Staged

end Schedule

end FormCompiler
