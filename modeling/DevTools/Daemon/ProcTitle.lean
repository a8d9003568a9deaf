import Mathlib.Data.List.Induction
import Mathlib.Logic.Function.Basic

/-!
# The title of the process

`setproctitle.ci` lets the daemon, its master and its worker show their names in the list of
processes: the title is written over the strings of `argv` and `environ`, which `spt_init` has
copied to other places. The kernel puts these strings one behind the other.

The first title clears the whole area, each later one only its first `SPT_MAXTITLE + 1` bytes.

**Theorem (`titles_exact`).** After any sequence of titles, the strings are what the last one that
was not empty makes of a cleared area: nothing is left of the arguments, the environment or an
earlier title. Nothing outside of the strings is written.

**Theorem (`environ_copied`).** The copy of the environment has each variable, with its last value
if there are several. It fails exactly if there is an entry without a name, or the memory for some
`setenv` is missing.
-/

namespace DevTools.Daemon

/-! ## Memory -/

abbrev Memory := Nat → UInt8

def memset (mem : Memory) (p : Nat) (b : UInt8) (n : Nat) : Memory :=
  fun a => if p ≤ a ∧ a < p + n then b else mem a

def memcpy (mem : Memory) (p : Nat) (src : List UInt8) : Memory :=
  fun a => if p ≤ a ∧ a < p + src.length then src.getD (a - p) 0 else mem a

/-! ## `spt_init` -/

/-- The addresses and lengths of strings that stand one behind the other. -/
def strings (p : Nat) : List (List UInt8) → List (Nat × Nat)
  | [] => []
  | s :: rest => (p, s.length) :: strings (p + s.length + 1) rest

/-- The bytes of the strings. -/
def size : List (List UInt8) → Nat
  | [] => 0
  | s :: rest => s.length + 1 + size rest

/-- A turn of the two loops that look for the end of the strings. -/
def endTurn (ends : Nat) (s : Nat × Nat) : Nat := if s.1 < ends then ends else s.1 + s.2 + 1

def equals : UInt8 := 61

/-- The name and the value of an entry of the environment. -/
def nameValue (s : List UInt8) : Option (List UInt8 × List UInt8) :=
  if equals ∈ s then some (s.takeWhile (· ≠ equals), (s.dropWhile (· ≠ equals)).tail) else none

/-- `setenv(name, value, 1)`, which fails for an empty name and without memory. -/
def setenv (memory : Bool) (env : List (List UInt8 × List UInt8)) (name value : List UInt8) :
    Option (List (List UInt8 × List UInt8)) :=
  if name = [] ∨ memory = false then none
  else if name ∈ env.map Prod.fst then
    some (env.map fun e => if e.1 = name then (name, value) else e)
  else some (env ++ [(name, value)])

/-- `spt_copyenv` from a cleared environment; `memory i` says that there is enough of it for
`oldenv[i]`. -/
def spt_copyenv (memory : Nat → Bool) (envp : List (List UInt8)) :
    Option (List (List UInt8 × List UInt8)) :=
  envp.zipIdx.foldlM (fun env s =>
    match nameValue s.1 with
    | none => some env
    | some (name, value) => setenv (memory s.2) env name value) []

/-- `SPT`, after `spt_init` has succeeded. -/
structure SPT where
  arg0 : List UInt8
  base : Nat
  /-- `end` -/
  ends : Nat
  nul : Nat
  reset : Bool
  deriving DecidableEq, Repr

/-- `spt_init`: `SPT` and the new `environ`. The strings of `argv` stand at `base`, those of `envp`
behind them; `strdup` says that there is memory for the copies of `argv`. -/
def spt_init (base : Nat) (arg0 : List UInt8) (args envp : List (List UInt8)) (strdup : Bool)
    (memory : Nat → Bool) : Option (SPT × List (List UInt8 × List UInt8)) :=
  let nul := base + arg0.length
  let ends := (strings base (arg0 :: args)).foldl endTurn (nul + 1)
  let ends := (strings (base + size (arg0 :: args)) envp).foldl endTurn ends
  if strdup then
    (spt_copyenv memory envp).map fun env => (⟨arg0, base, ends, nul, false⟩, env)
  else none

/-! ## `setproctitle` -/

def SPT_MAXTITLE : Nat := 255

def dot : UInt8 := 46

def space : UInt8 := 32

/-- The length of the longest title. -/
def SPT.room (s : SPT) : Nat := min (SPT_MAXTITLE + 1) (s.ends - s.base) - 1

/-- The end of `setproctitle`, when the old title has been cleared. -/
def SPT.write (s : SPT) (text : List UInt8) (mem : Memory) : Memory :=
  let len := min text.length s.room
  let mem := memcpy mem s.base (text.take len)
  let nul := s.base + len
  if nul < s.nul then Function.update mem s.nul dot
  else if nul = s.nul ∧ nul + 1 < s.ends then
    Function.update (Function.update mem s.nul space) (nul + 1) 0
  else mem

/-- `setproctitle`; `text` is what `vsnprintf` makes of the arguments, nothing if it fails. Without
a format it is `arg0`. -/
def setproctitle (x : SPT × Memory) (text : Option (List UInt8)) : SPT × Memory :=
  let s := x.1
  let text := text.getD s.arg0
  if text = [] then x
  else
    let mem := if s.reset then memset x.2 s.base 0 (min (SPT_MAXTITLE + 1) (s.ends - s.base))
      else memset x.2 s.base 0 (s.ends - s.base)
    ({ s with reset := true }, s.write text mem)

/-! ## The strings -/

theorem foldl_endTurn (strs : List (List UInt8)) (p : Nat) :
    (strings p strs).foldl endTurn p = p + size strs := by
  induction strs generalizing p with
  | nil => rfl
  | cons s rest ih =>
    have hturn : endTurn p (p, s.length) = p + s.length + 1 := if_neg (Nat.lt_irrefl p)
    rw [strings, List.foldl_cons, hturn, ih, size]
    omega

theorem size_append (l l' : List (List UInt8)) : size (l ++ l') = size l + size l' := by
  induction l with
  | nil => simp [size]
  | cons s l ih =>
    rw [List.cons_append, size, size, ih]
    omega

variable {base : Nat} {arg0 : List UInt8} {args envp : List (List UInt8)} {strdup : Bool}
  {memory : Nat → Bool} {s : SPT} {env : List (List UInt8 × List UInt8)}

/-- The area of the title is that of the strings. -/
theorem spt_init_ok (h : spt_init base arg0 args envp strdup memory = some (s, env)) :
    s = ⟨arg0, base, base + size (arg0 :: args ++ envp), base + arg0.length, false⟩ ∧
      spt_copyenv memory envp = some env := by
  have hargs : (strings base (arg0 :: args)).foldl endTurn (base + arg0.length + 1) =
      base + size (arg0 :: args) := by
    have hturn : endTurn (base + arg0.length + 1) (base, arg0.length) = base + arg0.length + 1 :=
      if_pos (by omega)
    rw [strings, List.foldl_cons, hturn, foldl_endTurn, size]
    omega
  unfold spt_init at h
  simp only [hargs, foldl_endTurn] at h
  split at h
  · obtain ⟨env', henv, heq⟩ := Option.map_eq_some_iff.1 h
    obtain ⟨rfl, rfl⟩ := Prod.mk.inj heq
    rw [size_append, Nat.add_assoc]
    exact ⟨rfl, henv⟩
  · cases h

/-! ## One title -/

/-- What a title makes of the area, with the memory around it. -/
def SPT.shown (s : SPT) (text : List UInt8) (mem : Memory) : Memory := fun a =>
  let len := min text.length s.room
  if a < s.base ∨ s.ends ≤ a then mem a
  else if a < s.base + len then text.getD (a - s.base) 0
  else if a = s.nul then
    if s.base + len < s.nul then dot else if s.nul + 1 < s.ends then space else 0
  else 0

/-- The old title is gone, except for a byte that the new one writes anyway. -/
structure SPT.Cleared (s : SPT) (mem cleared : Memory) : Prop where
  outside : ∀ a, a < s.base ∨ s.ends ≤ a → cleared a = mem a
  inside : ∀ a, s.base ≤ a → a < s.ends → a ≠ s.nul ∨ a < s.base + (SPT_MAXTITLE + 1) →
    cleared a = 0

structure SPT.Valid (s : SPT) : Prop where
  base_le : s.base ≤ s.nul
  nul_lt : s.nul < s.ends

variable {text : List UInt8} {mem cleared : Memory}

theorem SPT.room_lt (hs : s.Valid) : s.room ≤ SPT_MAXTITLE ∧ s.base + s.room < s.ends := by
  have := hs.base_le
  have := hs.nul_lt
  unfold SPT.room
  omega

theorem SPT.write_eq (hs : s.Valid) (h : s.Cleared mem cleared) :
    s.write text cleared = s.shown text mem := by
  obtain ⟨hmax, hroom⟩ := SPT.room_lt hs
  have hbase := hs.base_le
  have hnul := hs.nul_lt
  have hlen : min text.length s.room ≤ s.room := Nat.min_le_right _ _
  have htext : min text.length s.room ≤ text.length := Nat.min_le_left _ _
  funext a
  unfold SPT.write SPT.shown
  generalize min text.length s.room = len at *
  have hcopy : memcpy cleared s.base (text.take len) a =
      if s.base ≤ a ∧ a < s.base + len then text.getD (a - s.base) 0 else cleared a := by
    unfold memcpy
    rw [List.length_take_of_le htext]
    split_ifs with ha
    · rw [List.getD_eq_getElem?_getD, List.getElem?_take_of_lt (by omega),
        ← List.getD_eq_getElem?_getD]
    · rfl
  have hout := h.outside a
  have hin := h.inside a
  dsimp only
  -- the byte at `nul` is the dot, the space or part of the title, so it need not be cleared
  by_cases hlt : s.base + len < s.nul
  · rw [if_pos hlt, Function.update_apply, hcopy]
    split_ifs <;>
      first | rfl | omega | exact hout (by omega) | exact hin (by omega) (by omega) (by omega)
  · rw [if_neg hlt, if_neg hlt]
    by_cases heq : s.base + len = s.nul ∧ s.base + len + 1 < s.ends
    · rw [if_pos heq, Function.update_apply, Function.update_apply, hcopy]
      split_ifs <;>
        first | rfl | omega | exact hout (by omega) | exact hin (by omega) (by omega) (by omega)
    · rw [if_neg heq, hcopy]
      split_ifs <;>
        first | rfl | omega | exact hout (by omega) | exact hin (by omega) (by omega) (by omega)

/-- The first title clears everything. -/
theorem SPT.cleared_first (s : SPT) (mem : Memory) :
    s.Cleared mem (memset mem s.base 0 (s.ends - s.base)) := by
  constructor
  · intro a ha
    exact if_neg (by omega)
  · intro a hbase hends _
    exact if_pos (by omega)

/-- Behind the bytes that a later title clears there is nothing but zeros. -/
theorem SPT.cleared_later (hs : s.Valid) (text : List UInt8) (mem : Memory) :
    s.Cleared mem (memset (s.shown text mem) s.base 0
      (min (SPT_MAXTITLE + 1) (s.ends - s.base))) := by
  obtain ⟨hmax, hroom⟩ := SPT.room_lt hs
  constructor
  · intro a ha
    unfold memset
    rw [if_neg (by omega)]
    exact if_pos ha
  · intro a hbase hends hnul
    unfold memset
    split_ifs with ha
    · rfl
    · have hlen : min text.length s.room ≤ s.room := Nat.min_le_right _ _
      unfold SPT.shown
      dsimp only
      rw [if_neg (by omega), if_neg (by omega), if_neg (by omega)]

/-! ## Any sequence of titles -/

/-- The last title that is not empty. -/
def lastText (arg0 : List UInt8) (texts : List (Option (List UInt8))) : Option (List UInt8) :=
  ((texts.map fun text => text.getD arg0).filter (· ≠ [])).getLast?

theorem lastText_concat (arg0 : List UInt8) (texts : List (Option (List UInt8)))
    (text : Option (List UInt8)) : lastText arg0 (texts ++ [text]) =
      if text.getD arg0 = [] then lastText arg0 texts else some (text.getD arg0) := by
  unfold lastText
  rw [List.map_append, List.filter_append]
  split_ifs with htext
  · simp [htext]
  · simp [htext]

theorem titles_eq (hs : s.Valid) (hreset : s.reset = false) (mem : Memory)
    (texts : List (Option (List UInt8))) :
    texts.foldl setproctitle (s, mem) = match lastText s.arg0 texts with
      | none => (s, mem)
      | some text => ({ s with reset := true }, s.shown text mem) := by
  induction texts using List.reverseRecOn with
  | nil => rfl
  | append_singleton texts text ih =>
    rw [List.foldl_append, List.foldl_cons, List.foldl_nil, ih, lastText_concat]
    by_cases htext : text.getD s.arg0 = []
    · rw [if_pos htext]
      unfold setproctitle
      cases lastText s.arg0 texts with
      | none => exact if_pos htext
      | some old => exact if_pos htext
    · rw [if_neg htext]
      unfold setproctitle
      cases lastText s.arg0 texts with
      | none =>
        simp only [htext, if_false, hreset, Bool.false_eq_true, Prod.mk.injEq, true_and]
        exact SPT.write_eq hs (SPT.cleared_first s mem)
      | some old =>
        have heq : s.write (text.getD s.arg0) _ = _ :=
          SPT.write_eq hs (SPT.cleared_later hs old mem)
        simp only [htext, if_false, if_true, Prod.mk.injEq, true_and]
        exact heq

/-- **Only the last title is left, and nothing else is written.** -/
theorem titles_exact (h : spt_init base arg0 args envp strdup memory = some (s, env)) (mem : Memory)
    (texts : List (Option (List UInt8))) :
    s.base = base ∧ s.ends = base + size (arg0 :: args ++ envp) ∧
      (texts.foldl setproctitle (s, mem)).2 = match lastText arg0 texts with
        | none => mem
        | some text => s.shown text mem := by
  obtain ⟨rfl, -⟩ := spt_init_ok h
  have hvalid : SPT.Valid ⟨arg0, base, base + size (arg0 :: args ++ envp), base + arg0.length,
      false⟩ := by
    refine ⟨Nat.le_add_right _ _, ?_⟩
    show base + arg0.length < base + size (arg0 :: args ++ envp)
    rw [List.cons_append, size]
    omega
  refine ⟨rfl, rfl, ?_⟩
  rw [titles_eq hvalid rfl]
  cases lastText arg0 texts with
  | none => rfl
  | some text => rfl

/-- The second title is shorter than the first one. -/
theorem titles_exact_sample : ∃ s env,
    spt_init 100 [100] [[120]] [[65, 61, 49]] true (fun _ => true) = some (s, env) ∧
      ((List.range 8).map fun i => ([some [97, 98, 99, 100], some [101, 102]].foldl setproctitle
        (s, fun _ => 1)).2 (100 + i)) = [101, 102, 0, 0, 0, 0, 0, 0] := by
  refine ⟨⟨[100], 100, 108, 101, false⟩, [([65], [49])], by decide, ?_⟩
  have hinit : spt_init 100 [100] [[120]] [[65, 61, 49]] true (fun _ => true) =
      some (⟨[100], 100, 108, 101, false⟩, [([65], [49])]) := by decide
  obtain ⟨-, -, hmem⟩ := titles_exact hinit (fun _ => 1) [some [97, 98, 99, 100], some [101, 102]]
  rw [hmem]
  decide

/-! ## The environment -/

/-- The value of a variable, if the entry is about it. -/
def valueOf (name entry : List UInt8) : Option (List UInt8) :=
  match nameValue entry with
  | some (n, value) => if n = name then some value else none
  | none => none

theorem lookup_replace (env : List (List UInt8 × List UInt8)) (n value name : List UInt8) :
    (env.map fun e => if e.1 = n then (n, value) else e).lookup name =
      if name = n then (env.lookup n).map fun _ => value else env.lookup name := by
  induction env with
  | nil => simp
  | cons e env ih =>
    obtain ⟨m, old⟩ := e
    rw [List.map_cons]
    by_cases hm : m = n
    · subst hm
      by_cases hname : name = m
      · simp [hname]
      · simp [List.lookup_cons, beq_eq_false_iff_ne.2 hname, ih, hname]
    · by_cases hname : name = n
      · have hne : n ≠ m := fun h => hm h.symm
        subst hname
        simp [hm, List.lookup_cons, beq_eq_false_iff_ne.2 hne, ih]
      · simp only [hm, if_false, hname, List.lookup_cons, ih]

theorem lookup_setenv {env' : List (List UInt8 × List UInt8)} {n value : List UInt8}
    {enough : Bool} (h : setenv enough env n value = some env') (name : List UInt8) :
    env'.lookup name = if name = n then some value else env.lookup name := by
  have hnone : n ∉ env.map Prod.fst → env.lookup n = none := by
    intro hn
    rw [List.lookup_eq_none_iff]
    intro e he
    exact bne_iff_ne.2 fun heq => hn (heq ▸ List.mem_map_of_mem he)
  unfold setenv at h
  split_ifs at h with hempty hmem
  · cases h
    rw [lookup_replace]
    cases hold : env.lookup n with
    | none =>
      rw [List.lookup_eq_none_iff] at hold
      obtain ⟨e, he, heq⟩ := List.mem_map.1 hmem
      exact absurd heq.symm (bne_iff_ne.1 (hold e he))
    | some old => rfl
  · cases h
    rw [List.lookup_append]
    by_cases hname : name = n
    · simp [hname, hnone hmem]
    · simp [List.lookup_cons, beq_eq_false_iff_ne.2 hname, hname]

theorem filterMap_concat (name : List UInt8) (envp : List (List UInt8)) (entry : List UInt8) :
    ((envp ++ [entry]).filterMap (valueOf name)).getLast? =
      match valueOf name entry with
      | none => (envp.filterMap (valueOf name)).getLast?
      | some value => some value := by
  rw [List.filterMap_append]
  cases hvalue : valueOf name entry with
  | none => simp [hvalue]
  | some value => simp [hvalue]

/-- Some `setenv` fails. -/
def Fails (memory : Nat → Bool) (envp : List (List UInt8)) : Prop :=
  ∃ i entry name value, envp[i]? = some entry ∧ nameValue entry = some (name, value) ∧
    (name = [] ∨ memory i = false)

theorem fails_concat (memory : Nat → Bool) (envp : List (List UInt8)) (entry : List UInt8) :
    Fails memory (envp ++ [entry]) ↔ Fails memory envp ∨
      ∃ name value, nameValue entry = some (name, value) ∧
        (name = [] ∨ memory envp.length = false) := by
  constructor
  · intro h
    obtain ⟨i, e, name, value, hi, hvalue, hfail⟩ := h
    rw [List.getElem?_append] at hi
    split_ifs at hi with hlt
    · exact .inl ⟨i, e, name, value, hi, hvalue, hfail⟩
    · rw [List.getElem?_singleton, Option.ite_none_right_eq_some, Option.some_inj] at hi
      obtain ⟨hzero, rfl⟩ := hi
      obtain rfl : i = envp.length := by omega
      exact .inr ⟨name, value, hvalue, hfail⟩
  · intro h
    rcases h with ⟨i, e, name, value, hi, hvalue, hfail⟩ | ⟨name, value, hvalue, hfail⟩
    · obtain ⟨hlt, -⟩ := List.getElem?_eq_some_iff.mp hi
      exact ⟨i, e, name, value, by rwa [List.getElem?_append_left hlt], hvalue, hfail⟩
    · exact ⟨envp.length, entry, name, value, by simp, hvalue, hfail⟩

theorem setenv_eq_none {enough : Bool} {n value : List UInt8} :
    setenv enough env n value = none ↔ n = [] ∨ enough = false := by
  unfold setenv
  split_ifs with hempty <;> simp [hempty]

theorem spt_copyenv_concat (memory : Nat → Bool) (envp : List (List UInt8)) (entry : List UInt8) :
    spt_copyenv memory (envp ++ [entry]) = (spt_copyenv memory envp).bind fun env =>
      match nameValue entry with
      | none => some env
      | some (name, value) => setenv (memory envp.length) env name value := by
  unfold spt_copyenv
  rw [List.zipIdx_append, List.foldlM_append, List.zipIdx_singleton, Nat.zero_add]
  simp only [List.foldlM_cons, List.foldlM_nil, bind_pure]
  rfl

/-- **The copy has the last value of each variable.** -/
theorem environ_copied (memory : Nat → Bool) (envp : List (List UInt8)) :
    match spt_copyenv memory envp with
    | none => Fails memory envp
    | some env => ¬ Fails memory envp ∧
        ∀ name, env.lookup name = (envp.filterMap (valueOf name)).getLast? := by
  induction envp using List.reverseRecOn with
  | nil =>
    refine ⟨?_, fun _ => rfl⟩
    intro hfails
    obtain ⟨i, entry, name, value, hi, -⟩ := hfails
    cases hi
  | append_singleton envp entry ih =>
    rw [spt_copyenv_concat]
    simp only [fails_concat]
    cases hcopy : spt_copyenv memory envp with
    | none =>
      rw [hcopy] at ih
      exact .inl ih
    | some env =>
      rw [hcopy] at ih
      obtain ⟨hfails, hlookup⟩ := ih
      rw [Option.bind_some]
      cases hentry : nameValue entry with
      | none =>
        refine ⟨?_, fun name => ?_⟩
        · intro hlast
          rcases hlast with hlast | ⟨name, value, hvalue, -⟩
          · exact hfails hlast
          · cases hvalue
        · rw [filterMap_concat, valueOf, hentry]
          exact hlookup name
      | some nv =>
        obtain ⟨n, value⟩ := nv
        dsimp only
        cases hset : setenv (memory envp.length) env n value with
        | none => exact .inr ⟨n, value, rfl, setenv_eq_none.1 hset⟩
        | some env' =>
          refine ⟨?_, fun name => ?_⟩
          · intro hlast
            rcases hlast with hlast | ⟨name, v, hvalue, hfail⟩
            · exact hfails hlast
            · cases hvalue
              cases (setenv_eq_none.2 hfail).symm.trans hset
          · rw [filterMap_concat, valueOf, hentry, lookup_setenv hset, hlookup]
            by_cases hname : name = n
            · simp [hname]
            · have hne : ¬ n = name := fun h => hname h.symm
              simp [hname, hne]

end DevTools.Daemon
