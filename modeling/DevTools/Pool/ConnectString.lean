import DevTools.Lib.CString

/-!
# Connection strings

`RegistDataBase` keeps a connection string, `InitPool` takes it apart: `user/pass@host:port/schema`,
each part copied into an array of fixed size. `spliteStr` searches the five parts one after the
other, each from where the last one ended; no copy looks at the size of its array.

A run of the parser is its result and the copies it makes. `splite` is what it leaves in the
options when the copies stay inside their arrays, and `none` when one does not.

**Theorem (`splite_inverts`).** On strings whose parts fit, the parser accepts exactly the strings
`a/b@c:d/e` with `a` free of `/`, `b` of `@`, `c` of `:` and `d` of `/`; there is one such way to
read a string, and the options are its parts. Formatting is inverted.

**Theorem (`copies_inside_iff`).** The copies stay inside their arrays exactly if the string and the
parts that the parser reaches are short enough (`Short`). A user name of 32 characters is written
past its array (`user_overruns`).
-/

namespace DevTools.Pool

/-! ## `spliteStr` -/

/-- The arrays that connection strings and their parts are copied into. -/
inductive Buffer
  | connectstr
  | user
  | pass
  | hostName
  | port
  | schema
  deriving DecidableEq, Repr

def Buffer.capacity : Buffer → Nat
  | .connectstr => 256
  | .user => 32
  | .pass => 32
  | .hostName => 128
  | .port => 32
  | .schema => 32

/-- A copy of a text, with a NUL behind it. -/
structure Copy where
  dest : Buffer
  text : List Char
  deriving DecidableEq, Repr

/-- The bytes that a copy writes are inside its array. -/
def Copy.Inside (c : Copy) : Prop := c.text.length + 1 ≤ c.dest.capacity

instance (c : Copy) : Decidable c.Inside := inferInstanceAs (Decidable (_ ≤ _))

/-- One block of `spliteStr`: the text before the separator is copied, what is behind it is left to
the next block. -/
def field (dest : Buffer) (sep : Char) (next : List Char → Bool × List Copy) (pp : List Char) :
    Bool × List Copy :=
  match pp.idxOf? sep with
  | some p => ((next (pp.drop (p + 1))).1, ⟨dest, pp.take p⟩ :: (next (pp.drop (p + 1))).2)
  | none => (false, [])

/-- `if(++p)` is always taken. -/
def splitSchema (p : List Char) : Bool × List Copy := (true, [⟨.schema, p⟩])

def splitPort : List Char → Bool × List Copy := field .port '/' splitSchema

def splitHostName : List Char → Bool × List Copy := field .hostName ':' splitPort

def splitPass : List Char → Bool × List Copy := field .pass '@' splitHostName

/-- `spliteStr(constr, connOpt)`: its result and its copies. -/
def spliteStr : List Char → Bool × List Copy := field .user '/' splitPass

/-- The options that the parser sets. -/
structure Target where
  user : List Char
  pass : List Char
  hostName : List Char
  port : Int
  schema : List Char
  deriving DecidableEq, Repr

/-- What a copy does to the options; the port goes through a local array. -/
def Target.set (o : Target) (c : Copy) : Target :=
  match c.dest with
  | .user => { o with user := c.text }
  | .pass => { o with pass := c.text }
  | .hostName => { o with hostName := c.text }
  | .port => { o with port := atoi c.text }
  | .schema => { o with schema := c.text }
  | .connectstr => o

/-- `spliteStr` on the options; `none` when a copy leaves its array. -/
def splite (constr : List Char) (o : Target) : Option (Bool × Target) :=
  if ∀ c ∈ (spliteStr constr).2, c.Inside then
    some ((spliteStr constr).1, (spliteStr constr).2.foldl Target.set o)
  else none

/-! ## One block -/

section field

variable {dest : Buffer} {sep : Char} {next : List Char → Bool × List Copy} {s l r : List Char}

theorem field_split (h : sep ∉ l) :
    field dest sep next (l ++ sep :: r) = ((next r).1, ⟨dest, l⟩ :: (next r).2) := by
  simp [field, idxOf?_split h]

theorem field_notMem (h : sep ∉ s) : field dest sep next s = (false, []) := by
  simp [field, List.idxOf?_eq_none_iff.2 h]

/-- A block accepts when it finds its separator and the blocks after it accept. -/
theorem field_accepts : (field dest sep next s).1 = true ↔
    ∃ l r, s = l ++ sep :: r ∧ sep ∉ l ∧ (next r).1 = true := by
  constructor
  · intro h
    by_cases hs : sep ∈ s
    · obtain ⟨l, r, rfl, hl⟩ := List.eq_append_cons_of_mem hs
      rw [field_split hl] at h
      exact ⟨l, r, rfl, hl, h⟩
    · rw [field_notMem hs] at h
      cases h
  · rintro ⟨l, r, rfl, hl, h⟩
    rwa [field_split hl]

/-- A block's copies are inside their arrays if its part is short, and so on behind it. -/
theorem field_inside : (∀ c ∈ (field dest sep next s).2, c.Inside) ↔
    ∀ l r, s = l ++ sep :: r → sep ∉ l →
      l.length + 1 ≤ dest.capacity ∧ ∀ c ∈ (next r).2, c.Inside := by
  constructor
  · rintro h l r rfl hl
    rw [field_split hl] at h
    simpa [Copy.Inside] using h
  · intro h
    by_cases hs : sep ∈ s
    · obtain ⟨l, r, rfl, hl⟩ := List.eq_append_cons_of_mem hs
      obtain ⟨hlen, hnext⟩ := h l r rfl hl
      rw [field_split hl]
      simpa [Copy.Inside] using ⟨hlen, hnext⟩
    · rw [field_notMem hs]
      simp

end field

/-! ## Acceptance and parts -/

/-- The string is `a/b@c:d/e`, split at the first separator each time. -/
structure Reads (s a b c d e : List Char) : Prop where
  eq : s = a ++ '/' :: (b ++ '@' :: (c ++ ':' :: (d ++ '/' :: e)))
  user : '/' ∉ a
  pass : '@' ∉ b
  hostName : ':' ∉ c
  port : '/' ∉ d

variable {s a b c d e : List Char}

theorem Reads.spliteStr (h : Reads s a b c d e) :
    Pool.spliteStr s =
      (true, [⟨.user, a⟩, ⟨.pass, b⟩, ⟨.hostName, c⟩, ⟨.port, d⟩, ⟨.schema, e⟩]) := by
  simp only [h.eq, Pool.spliteStr, splitPass, splitHostName, splitPort, splitSchema,
    field_split h.user, field_split h.pass, field_split h.hostName, field_split h.port]

/-- There is one way to read a string. -/
theorem Reads.unique {a' b' c' d' e' : List Char} (h : Reads s a b c d e)
    (h' : Reads s a' b' c' d' e') : a' = a ∧ b' = b ∧ c' = c ∧ d' = d ∧ e' = e := by
  obtain ⟨ha, h1⟩ := split_unique h'.user h.user (h'.eq.symm.trans h.eq)
  obtain ⟨hb, h2⟩ := split_unique h'.pass h.pass h1
  obtain ⟨hc, h3⟩ := split_unique h'.hostName h.hostName h2
  obtain ⟨hd, he⟩ := split_unique h'.port h.port h3
  exact ⟨ha, hb, hc, hd, he⟩

theorem spliteStr_accepts : (spliteStr s).1 = true ↔ ∃ a b c d e, Reads s a b c d e := by
  constructor
  · intro h
    obtain ⟨a, r, rfl, ha, h⟩ := field_accepts.1 h
    obtain ⟨b, r, rfl, hb, h⟩ := field_accepts.1 h
    obtain ⟨c, r, rfl, hc, h⟩ := field_accepts.1 h
    obtain ⟨d, e, rfl, hd, -⟩ := field_accepts.1 h
    exact ⟨a, b, c, d, e, rfl, ha, hb, hc, hd⟩
  · rintro ⟨a, b, c, d, e, h⟩
    rw [h.spliteStr]

theorem Reads.splite (h : Reads s a b c d e) (o : Target)
    (hin : ∀ c ∈ (Pool.spliteStr s).2, c.Inside) :
    Pool.splite s o = some (true, ⟨a, b, c, atoi d, e⟩) := by
  rw [Pool.splite, if_pos hin, h.spliteStr]
  rfl

/-- `snprintf` of the parts. -/
def format (user pass host : List Char) (port : Nat) (schema : List Char) : List Char :=
  user ++ '/' :: (pass ++ '@' :: (host ++ ':' :: (castAsChar port ++ '/' :: schema)))

theorem slash_notMem_port (n : Nat) : '/' ∉ castAsChar n := by
  intro h
  exact absurd (isDigit_toDigits h) (by decide)

theorem atoi_port {n : Nat} (h : n ≤ 65535) : atoi (castAsChar n) = n := by
  have hread : atol (castAsChar n) = n := by
    have hin : InInt64 (n : Int) := by
      unfold InInt64
      omega
    simpa using atol_castAsChar hin (r := []) (by simp)
  rw [atoi, hread]
  apply wrap32_of_inInt32
  unfold InInt32
  omega

/-- A port number has at most five digits. -/
theorem length_port {n : Nat} (h : n ≤ 65535) : (castAsChar n).length ≤ 5 :=
  (Nat.length_toDigits_le_iff (by decide) (by decide)).2 (by omega)

/-- **Parsing inverts formatting**, and accepts nothing else. -/
theorem splite_inverts (o : Target) :
    (∀ user pass host schema : List Char, ∀ port : Nat, '/' ∉ user → '@' ∉ pass → ':' ∉ host →
      port ≤ 65535 → user.length < 32 → pass.length < 32 → host.length < 128 →
      schema.length < 32 →
      splite (format user pass host port schema) o =
        some (true, ⟨user, pass, host, port, schema⟩)) ∧
    ∀ s : List Char, (∀ c ∈ (spliteStr s).2, c.Inside) →
      ((∃ o', splite s o = some (true, o')) ↔ ∃ a b c d e, Reads s a b c d e) ∧
      (∀ a b c d e, Reads s a b c d e → splite s o = some (true, ⟨a, b, c, atoi d, e⟩) ∧
        ∀ a' b' c' d' e', Reads s a' b' c' d' e' →
          a' = a ∧ b' = b ∧ c' = c ∧ d' = d ∧ e' = e) := by
  constructor
  · intro user pass host schema port huser hpass hhost hport hlu hlp hlh hls
    have hreads : Reads (format user pass host port schema) user pass host (castAsChar port)
        schema :=
      ⟨rfl, huser, hpass, hhost, slash_notMem_port port⟩
    have hlen := length_port hport
    have hin : ∀ c ∈ (spliteStr (format user pass host port schema)).2, c.Inside := by
      rw [hreads.spliteStr]
      simp only [List.forall_mem_cons, Copy.Inside, Buffer.capacity]
      refine ⟨?_, ?_, ?_, ?_, ?_, by simp⟩ <;> omega
    rw [hreads.splite o hin, atoi_port hport]
  · intro s hin
    refine ⟨?_, fun a b c d e h => ⟨h.splite o hin, fun _ _ _ _ _ h' => h.unique h'⟩⟩
    rw [← spliteStr_accepts, splite, if_pos hin]
    simp

/-- The string of the documentation of `RegistDataBase`. -/
theorem splite_inverts_sample :
    splite "root/1@127.0.0.1:3306/test".toList ⟨[], [], [], 0, []⟩ =
      some (true, ⟨"root".toList, "1".toList, "127.0.0.1".toList, 3306, "test".toList⟩) := by
  have hformat : "root/1@127.0.0.1:3306/test".toList =
      format "root".toList "1".toList "127.0.0.1".toList 3306 "test".toList := by
    decide
  rw [hformat]
  exact (splite_inverts ⟨[], [], [], 0, []⟩).1 "root".toList "1".toList "127.0.0.1".toList
    "test".toList 3306 (by decide) (by decide) (by decide) (by decide) (by decide) (by decide)
    (by decide) (by decide)

/-! ## Staying inside the arrays -/

/-- The copies made for a connection string: `strcpy` in the constructor of the pool, then those of
`InitPool`. -/
def copies (s : List Char) : List Copy := ⟨.connectstr, s⟩ :: (spliteStr s).2

/-- The string, and the parts that the parser reaches, have room in their arrays. -/
def Short (s : List Char) : Prop :=
  s.length < 256 ∧ ∀ a r, s = a ++ '/' :: r → '/' ∉ a → a.length < 32 ∧
    ∀ b r', r = b ++ '@' :: r' → '@' ∉ b → b.length < 32 ∧
      ∀ c r'', r' = c ++ ':' :: r'' → ':' ∉ c → c.length < 128 ∧
        ∀ d e, r'' = d ++ '/' :: e → '/' ∉ d → d.length < 32 ∧ e.length < 32

theorem copies_inside : (∀ c ∈ copies s, c.Inside) ↔ Short s := by
  simp only [copies, List.forall_mem_cons, spliteStr, splitPass, splitHostName, splitPort,
    splitSchema, field_inside]
  simp only [Copy.Inside, Buffer.capacity, Short, Nat.add_one_le_iff, List.not_mem_nil,
    false_implies, implies_true, and_true]

/-- **The copies stay inside their arrays** for short strings, and only for them. -/
theorem copies_inside_iff (s : List Char) :
    ((∀ c ∈ copies s, c.Inside) ∧ (¬ Short s → (spliteStr s).1 = false)) ↔ Short s := by
  rw [copies_inside]
  constructor
  · exact fun h => h.1
  · exact fun h => ⟨h, fun hlong => absurd h hlong⟩

/-- A user name of 32 characters. -/
theorem user_overruns :
    ¬ ∀ s : List Char, (∀ c ∈ copies s, c.Inside) ∧ (¬ Short s → (spliteStr s).1 = false) := by
  intro h
  have hin := (h (List.replicate 32 'u' ++ "/p@h:1/s".toList)).1
  exact absurd hin (by decide)

end DevTools.Pool
