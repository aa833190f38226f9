import Kerninst.Lib.Checked

/-!
# Fixups

A `Fixup` looks at the values at some places and replaces them. It may refuse the values that it
finds. Its `result` on a store is what it would write.

A list of fixups is performed one after the other (`runAll`). If no place belongs to two of them,
none of them sees what another has written. So all of them succeed if each one would on the
store as it was at first (`runAll_isSome_iff`); afterwards its result is at its places
(`runAll_results`), and all other places are as they were (`runAll_frame`). The order does not
matter for that.
-/

namespace Kerninst

open List Option

universe u v w

/-- Values have been found for all elements. -/
theorem isSome_of_mapM {α : Type u} {β : Type v} {f : α → Option β} :
    ∀ {l : List α} {r : List β}, l.mapM f = some r → ∀ a ∈ l, (f a).isSome := by
  intro l
  induction l with
  | nil => exact fun _ _ h => nomatch h
  | cons a l ih =>
    intro r h
    rw [mapM_cons] at h
    obtain ⟨b, hb, hrest⟩ := exists_of_bind h
    obtain ⟨bs, hbs, -⟩ := exists_of_bind hrest
    exact forall_mem_cons.mpr ⟨isSome_of_eq_some hb, ih hbs⟩

theorem eq_of_mapM_eq {α : Type u} {β : Type v} {f g : α → Option β} :
    ∀ {l : List α}, l.mapM f = l.mapM g → (l.mapM g).isSome → ∀ a ∈ l, f a = g a := by
  intro l
  induction l with
  | nil => exact fun _ _ _ h => nomatch h
  | cons a l ih =>
    intro h hsome
    obtain ⟨r, hg⟩ := isSome_iff_exists.mp hsome
    rw [hg] at h
    rw [mapM_cons] at h hg
    obtain ⟨b, hb, h⟩ := exists_of_bind h
    obtain ⟨c, hc, hg⟩ := exists_of_bind hg
    obtain ⟨bs, hbs, h⟩ := exists_of_bind h
    obtain ⟨cs, hcs, hg⟩ := exists_of_bind hg
    obtain ⟨rfl, rfl⟩ := cons.inj (some.inj (h.trans hg.symm))
    have htail := ih (hbs.trans hcs.symm) (isSome_of_eq_some hcs)
    exact forall_mem_cons.mpr ⟨hb.trans hc.symm, htail⟩

theorem foldlM_congr {α : Type u} {σ : Type v} {f g : σ → α → Option σ} :
    ∀ {l : List α}, (∀ a ∈ l, ∀ s, f s a = g s a) → ∀ s, l.foldlM f s = l.foldlM g s := by
  intro l
  induction l with
  | nil => exact fun _ _ => rfl
  | cons a l ih =>
    intro h s
    rw [foldlM_cons, foldlM_cons, h a (mem_cons_self ..)]
    exact congrArg (bind _) (funext (ih fun b hb => h b (mem_cons_of_mem _ hb)))

/-- A store whose cells are named by places. Only cells that exist can be read. -/
structure Cells (S : Type u) (P : Type v) (V : Type w) where
  read : S → P → Option V
  write : S → P → V → S
  read_write_self : ∀ {s : S} {p : P} (v : V), (read s p).isSome → read (write s p v) p = some v
  read_write_of_ne : ∀ (s : S) {p q : P} (v : V), q ≠ p → read (write s p v) q = read s q

/-- Values at some places are replaced by as many others. -/
structure Fixup (P : Type v) (V : Type w) where
  places : List P
  rewrite : List V → Option (List V)
  length_rewrite : ∀ {vs vs' : List V}, rewrite vs = some vs' → vs'.length = vs.length

namespace Cells

variable {S : Type u} {P : Type v} {V : Type w} (cells : Cells S P V)

def writeAll (s : S) : List P → List V → S
  | p :: ps, v :: vs => writeAll (cells.write s p v) ps vs
  | _, _ => s

variable {cells} {s : S} {ps : List P}

theorem read_writeAll_of_notMem : ∀ {ps : List P} {vs : List V} {s : S} {q : P}, q ∉ ps →
    cells.read (cells.writeAll s ps vs) q = cells.read s q := by
  intro ps
  induction ps with
  | nil => exact fun _ => rfl
  | cons p ps ih =>
    rintro (_ | ⟨v, vs⟩) s q hq
    · rfl
    · rw [writeAll, ih (fun h => hq (mem_cons_of_mem _ h)),
        cells.read_write_of_ne s v (ne_of_not_mem_cons hq)]

/-- What has been written is read back. -/
theorem mapM_read_writeAll : ∀ {ps : List P} {vs ws : List V} {s : S}, ps.Nodup →
    ps.mapM (cells.read s) = some ws → vs.length = ws.length →
    ps.mapM (cells.read (cells.writeAll s ps vs)) = some vs := by
  intro ps
  induction ps with
  | nil =>
    intro vs ws s _ hws hlen
    cases hws
    rw [length_eq_zero_iff.mp hlen]
    rfl
  | cons p ps ih =>
    intro vs ws s hnodup hws hlen
    obtain ⟨hp, hnodup⟩ := nodup_cons.mp hnodup
    rw [mapM_cons] at hws
    obtain ⟨w, hw, hrest⟩ := exists_of_bind hws
    obtain ⟨ws', hws', heq⟩ := exists_of_bind hrest
    cases heq
    obtain _ | ⟨v, vs⟩ := vs
    · exact nomatch hlen
    have hother : ps.mapM (cells.read (cells.write s p v)) = some ws' := by
      rw [← hws']
      exact mapM_congr fun q hq => cells.read_write_of_ne s v fun h => hp (h ▸ hq)
    have hself : cells.read (cells.write s p v) p = some v :=
      cells.read_write_self v (isSome_of_eq_some hw)
    rw [writeAll, mapM_cons, read_writeAll_of_notMem hp, hself,
      ih hnodup hother (Nat.succ.inj hlen)]
    rfl

end Cells

namespace Fixup

variable {S : Type u} {P : Type v} {V : Type w} (cells : Cells S P V)

/-- What the fixup would write. -/
def result (f : Fixup P V) (s : S) : Option (List V) :=
  (f.places.mapM (cells.read s)).bind f.rewrite

def run (f : Fixup P V) (s : S) : Option S := (f.result cells s).map (cells.writeAll s f.places)

def runAll (fs : List (Fixup P V)) (s : S) : Option S := fs.foldlM (fun s f => f.run cells s) s

variable {cells} {f g : Fixup P V} {fs : List (Fixup P V)} {s s' : S}

theorem read_of_run (h : f.run cells s = some s') {p : P} (hp : p ∉ f.places) :
    cells.read s' p = cells.read s p := by
  obtain ⟨vs, -, rfl⟩ := map_eq_some_iff.mp h
  exact Cells.read_writeAll_of_notMem hp

theorem places_of_run (hnodup : f.places.Nodup) (h : f.run cells s = some s') :
    f.places.mapM (cells.read s') = f.result cells s := by
  obtain ⟨vs, hvs, rfl⟩ := map_eq_some_iff.mp h
  obtain ⟨ws, hws, hrewrite⟩ := exists_of_bind hvs
  rw [hvs, Cells.mapM_read_writeAll hnodup hws (f.length_rewrite hrewrite)]

theorem runAll_append {fs' : List (Fixup P V)} :
    runAll cells (fs ++ fs') s = (runAll cells fs s).bind (runAll cells fs') :=
  foldlM_append

theorem runAll_cons : runAll cells (f :: fs) s = (f.run cells s).bind (runAll cells fs) := rfl

/-- **Frame.** Other places are as they were. -/
theorem runAll_frame : ∀ {fs : List (Fixup P V)} {s s' : S}, runAll cells fs s = some s' →
    ∀ p, (∀ f ∈ fs, p ∉ f.places) → cells.read s' p = cells.read s p := by
  intro fs
  induction fs with
  | nil =>
    intro s s' h p _
    cases h
    rfl
  | cons f fs ih =>
    intro s s' h p hp
    obtain ⟨s₁, hs₁, hrest⟩ := exists_of_bind h
    obtain ⟨hf, hfs⟩ := forall_mem_cons.mp hp
    rw [ih hrest p hfs, read_of_run hs₁ hf]

section Apart

/-- The first fixup and the others are apart. -/
theorem apart_cons (h : ((f :: fs).flatMap places).Nodup) : f.places.Nodup ∧
    (fs.flatMap places).Nodup ∧ ∀ g ∈ fs, ∀ p ∈ g.places, p ∉ f.places := by
  rw [flatMap_cons, nodup_append] at h
  obtain ⟨hf, hfs, hne⟩ := h
  exact ⟨hf, hfs, fun g hg p hp hpf => hne p hpf p (mem_flatMap_of_mem hg hp) rfl⟩

/-- Running one leaves the results of the others as they are. -/
theorem result_of_run (hapart : ∀ p ∈ g.places, p ∉ f.places) (h : f.run cells s = some s') :
    g.result cells s' = g.result cells s := by
  rw [result, result, mapM_congr fun p hp => read_of_run h (hapart p hp)]

/-- **All succeed if each one would.** -/
theorem runAll_isSome_iff : ∀ {fs : List (Fixup P V)} {s : S}, (fs.flatMap places).Nodup →
    ((runAll cells fs s).isSome ↔ ∀ f ∈ fs, (f.result cells s).isSome) := by
  intro fs
  induction fs with
  | nil => exact fun _ => ⟨fun _ _ h => (nomatch h), fun _ => rfl⟩
  | cons f fs ih =>
    intro s hnodup
    obtain ⟨-, hfs, hapart⟩ := apart_cons hnodup
    rw [runAll_cons, forall_mem_cons]
    cases hrun : f.run cells s with
    | none =>
      have hnone : f.result cells s = none := map_eq_none_iff.mp hrun
      simp [hnone]
    | some s₁ =>
      have hsome : (f.result cells s).isSome := by
        obtain ⟨vs, hvs, -⟩ := map_eq_some_iff.mp hrun
        rw [hvs]
        rfl
      rw [bind_some, ih hfs, and_iff_right hsome]
      exact forall₂_congr fun g hg => by rw [result_of_run (hapart g hg) hrun]

/-- **Each place holds the result of its fixup.** -/
theorem runAll_results : ∀ {fs : List (Fixup P V)} {s s' : S}, (fs.flatMap places).Nodup →
    runAll cells fs s = some s' → ∀ f ∈ fs, f.places.mapM (cells.read s') = f.result cells s := by
  intro fs
  induction fs with
  | nil => exact fun _ _ _ h => nomatch h
  | cons f fs ih =>
    intro s s' hnodup h g hg
    obtain ⟨hf, hfs, hapart⟩ := apart_cons hnodup
    obtain ⟨s₁, hs₁, hrest⟩ := exists_of_bind h
    obtain rfl | hg := mem_cons.mp hg
    · -- the others leave its places alone
      rw [← places_of_run hf hs₁]
      exact mapM_congr fun p hp => runAll_frame hrest p fun f' hf' hp' => hapart f' hf' p hp' hp
    · rw [ih hfs hrest g hg, result_of_run (hapart g hg) hs₁]

/-- **Once more.** Other fixups at the same places have the same effect after the first ones as
they would have had before, if and only if each of them has the same result. -/
theorem runAll_again_iff {ι : Type u} {F G : ι → Fixup P V} {l : List ι} {s₁ s₂ : S}
    (hnodup : ((l.map F).flatMap places).Nodup) (hplaces : ∀ i, (G i).places = (F i).places)
    (h₁ : runAll cells (l.map F) s = some s₁) (h₂ : runAll cells (l.map G) s = some s₂) :
    (∃ s₃, runAll cells (l.map G) s₁ = some s₃ ∧ ∀ p, cells.read s₃ p = cells.read s₂ p) ↔
      ∀ i ∈ l, (G i).result cells s₁ = (G i).result cells s := by
  have hnodup' : ((l.map G).flatMap places).Nodup := by
    rw [flatMap_map] at hnodup ⊢
    rwa [flatMap_congr fun i _ => hplaces i]
  have hresult₂ : ∀ i ∈ l, (G i).places.mapM (cells.read s₂) = (G i).result cells s :=
    fun i hi => runAll_results hnodup' h₂ _ (mem_map_of_mem hi)
  have hsome : ∀ i ∈ l, ((G i).result cells s).isSome := fun i hi =>
    (runAll_isSome_iff hnodup').mp (isSome_of_eq_some h₂) _ (mem_map_of_mem hi)
  constructor
  · rintro ⟨s₃, h₃, hread⟩ i hi
    rw [← runAll_results hnodup' h₃ _ (mem_map_of_mem hi), ← hresult₂ i hi]
    exact mapM_congr fun p _ => hread p
  · intro hsame
    have hsome₁ : (runAll cells (l.map G) s₁).isSome := by
      refine (runAll_isSome_iff hnodup').mpr fun g hg => ?_
      obtain ⟨i, hi, rfl⟩ := mem_map.mp hg
      rw [hsame i hi]
      exact hsome i hi
    obtain ⟨s₃, h₃⟩ := isSome_iff_exists.mp hsome₁
    refine ⟨s₃, h₃, fun p => ?_⟩
    by_cases hp : ∃ i ∈ l, p ∈ (G i).places
    · obtain ⟨i, hi, hp⟩ := hp
      have hresult₃ := runAll_results hnodup' h₃ _ (mem_map_of_mem hi)
      rw [hsame i hi, ← hresult₂ i hi] at hresult₃
      exact eq_of_mapM_eq hresult₃ (hresult₂ i hi ▸ hsome i hi) p hp
    · -- no fixup touches the place
      have hG : ∀ g ∈ l.map G, p ∉ g.places := by
        intro g hg hmem
        obtain ⟨i, hi, rfl⟩ := mem_map.mp hg
        exact hp ⟨i, hi, hmem⟩
      have hF : ∀ f ∈ l.map F, p ∉ f.places := by
        intro f hf hmem
        obtain ⟨i, hi, rfl⟩ := mem_map.mp hf
        exact hp ⟨i, hi, hplaces i ▸ hmem⟩
      rw [runAll_frame h₃ p hG, runAll_frame h₁ p hF, runAll_frame h₂ p hG]

end Apart

/-! ### Fixups of one or two cells, and with expected values -/

/-- Replace one value by another that depends on it. -/
def single (p : P) (f : V → Option V) : Fixup P V where
  places := [p]
  rewrite
    | [v] => (f v).map fun v' => [v']
    | _ => none
  length_rewrite := by
    intro vs vs' h
    split at h
    · obtain ⟨v', -, rfl⟩ := Option.map_eq_some_iff.mp h
      rfl
    · cases h

variable {f : V → Option V}

theorem result_single {p : P} :
    (single p f).result cells s = (cells.read s p).bind fun v => (f v).map fun v' => [v'] := by
  cases h : cells.read s p <;> simp [result, single, h]

theorem run_single {p : P} :
    (single p f).run cells s = (cells.read s p).bind fun v => (f v).map (cells.write s p) := by
  rw [run, result_single]
  cases cells.read s p with
  | none => rfl
  | some v => cases h : f v <;> simp [single, Cells.writeAll, h]

theorem rewrite_single_eq_some {p : P} {vs vs' : List V} :
    (single p f).rewrite vs = some vs' ↔ ∃ v v', vs = [v] ∧ vs' = [v'] ∧ f v = some v' := by
  constructor
  · intro h
    unfold single at h
    dsimp only at h
    split at h
    · obtain ⟨v', hv', rfl⟩ := map_eq_some_iff.mp h
      exact ⟨_, v', rfl, rfl, hv'⟩
    · cases h
  · rintro ⟨v, v', rfl, rfl, h⟩
    simp [single, h]

/-- Replace two values, each by another that depends on it. -/
def pair (p q : P) (f g : V → Option V) : Fixup P V where
  places := [p, q]
  rewrite
    | [v, w] => (f v).bind fun v' => (g w).map fun w' => [v', w']
    | _ => none
  length_rewrite := by
    intro vs vs' h
    split at h
    · obtain ⟨v', -, h⟩ := exists_of_bind h
      obtain ⟨w', -, rfl⟩ := Option.map_eq_some_iff.mp h
      rfl
    · cases h

theorem result_pair {p q : P} {f g : V → Option V} :
    (pair p q f g).result cells s = (cells.read s p).bind fun v => (cells.read s q).bind fun w =>
      (f v).bind fun v' => (g w).map fun w' => [v', w'] := by
  cases hp : cells.read s p <;> cases hq : cells.read s q <;> simp [result, pair, hp, hq]

theorem rewrite_pair_eq_some {p q : P} {f g : V → Option V} {vs vs' : List V} :
    (pair p q f g).rewrite vs = some vs' ↔
      ∃ v w v' w', vs = [v, w] ∧ vs' = [v', w'] ∧ f v = some v' ∧ g w = some w' := by
  constructor
  · intro h
    unfold pair at h
    dsimp only at h
    split at h
    · obtain ⟨v', hv', h⟩ := exists_of_bind h
      obtain ⟨w', hw', rfl⟩ := map_eq_some_iff.mp h
      exact ⟨_, _, v', w', rfl, rfl, hv', hw'⟩
    · cases h
  · rintro ⟨v, w, v', w', rfl, rfl, hv, hw⟩
    simp [pair, hv, hw]

/-- One after the other is the same as both at once. -/
theorem run_pair {p q : P} (hne : q ≠ p) {f g : V → Option V} :
    (pair p q f g).run cells s = ((cells.read s p).bind fun v => (f v).map (cells.write s p)).bind
      fun s₁ => (cells.read s₁ q).bind fun w => (g w).map (cells.write s₁ q) := by
  rw [run, result_pair]
  cases cells.read s p with
  | none => rfl
  | some v =>
    cases hv : f v with
    | none => cases cells.read s q <;> simp [hv]
    | some v' =>
      simp only [bind_some, hv, map_some, cells.read_write_of_ne s v' hne]
      cases cells.read s q with
      | none => rfl
      | some w => cases h : g w <;> simp [pair, Cells.writeAll, h]

/-- A fixup that refuses whatever it finds. -/
def refuse (places : List P) : Fixup P V where
  places := places
  rewrite _ := none
  length_rewrite := fun h => nomatch h

/-- A fixup that could not be determined refuses. -/
def orRefuse (places : List P) (f : Option (Fixup P V)) : Fixup P V := f.getD (refuse places)

variable {f : Option (Fixup P V)} {ps : List P}

theorem places_orRefuse (h : ∀ g, f = some g → g.places = ps) : (orRefuse ps f).places = ps := by
  cases f with
  | none => rfl
  | some g => exact h g rfl

theorem result_orRefuse : (orRefuse ps f).result cells s = f.bind fun g => g.result cells s := by
  cases f with
  | none => exact bind_fun_none _
  | some g => rfl

theorem run_orRefuse : (orRefuse ps f).run cells s = f.bind fun g => g.run cells s := by
  cases f with
  | none => rw [run, result_orRefuse]; rfl
  | some g => rfl

variable [DecidableEq V]

/-- Replace the values if they are the expected ones. What is expected, and the new values, may
depend on what is there. -/
def replacing (places : List P) (words : List V → Option (List V × List V)) : Fixup P V where
  places := places
  rewrite vs := (words vs).bind fun ws =>
    if vs = ws.1 ∧ ws.2.length = ws.1.length then some ws.2 else none
  length_rewrite := by
    intro vs vs' h
    obtain ⟨ws, -, h⟩ := exists_of_bind h
    split at h
    case isTrue hws =>
      cases h
      rw [hws.1, hws.2]
    case isFalse => cases h

theorem rewrite_replacing_eq_some {words : List V → Option (List V × List V)} {vs vs' : List V} :
    (replacing ps words).rewrite vs = some vs' ↔
      words vs = some (vs, vs') ∧ vs'.length = vs.length := by
  simp only [replacing, ite_eq_iff, reduceCtorEq, and_false, or_false, do_eq_some]
  constructor
  · rintro ⟨⟨old, new⟩, hwords, ⟨rfl, hlen⟩, rfl⟩
    exact ⟨hwords, hlen⟩
  · rintro ⟨hwords, hlen⟩
    exact ⟨(vs, vs'), hwords, ⟨rfl, hlen⟩, rfl⟩

end Fixup

end Kerninst
