namespace ObjectVault.Text

/-- The characters that separate words: the controls from tab to carriage return, the next-line
control and every Unicode space, line and paragraph separator. -/
def isBlank (c : Char) : Bool :=
  let n := c.toNat
  (9 ≤ n && n ≤ 13) || n == 0x20 || n == 0x85 || n == 0xA0 || n == 0x1680 ||
    (0x2000 ≤ n && n ≤ 0x200A) || n == 0x2028 || n == 0x2029 || n == 0x202F || n == 0x205F ||
    n == 0x3000

theorem isBlank_space : isBlank ' ' = true := by decide

/-- Drops the blanks before the first other character. -/
def trimStart (cs : List Char) : List Char :=
  cs.dropWhile isBlank

/-- Drops the blanks after the last other character. -/
def trimEnd (cs : List Char) : List Char :=
  (cs.reverse.dropWhile isBlank).reverse

def trim (cs : List Char) : List Char :=
  trimEnd (trimStart cs)

def trimmed (s : String) : String :=
  .ofList (trim s.toList)

theorem trim_of_ends {cs : List Char} (first : ∀ c ∈ cs.head?, isBlank c = false)
    (last : ∀ c ∈ cs.getLast?, isBlank c = false) : trim cs = cs := by
  have kept : ∀ ds : List Char,
      (∀ c ∈ ds.head?, isBlank c = false) → ds.dropWhile isBlank = ds := by
    intro ds hd
    cases ds with
    | nil => rfl
    | cons d ds => rw [List.dropWhile_cons_of_neg (by simp [hd d rfl])]
  rw [trim, trimStart, kept cs first, trimEnd, kept cs.reverse (by simpa using last),
    List.reverse_reverse]

theorem trim_of_no_blank {cs : List Char} (h : ∀ c ∈ cs, isBlank c = false) : trim cs = cs :=
  trim_of_ends (fun c mem => h c (List.mem_of_mem_head? mem))
    fun c mem => h c (List.mem_of_getLast? mem)

end ObjectVault.Text
