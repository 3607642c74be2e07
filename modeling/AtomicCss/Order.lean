/-! The dictionary order of lists of numbers. -/
namespace AtomicCss

/-- Whether `a` comes before `b` in the dictionary order or is the same: at the
first difference the smaller number decides, and a list comes before its
continuations. -/
def dictionaryLe : List Nat → List Nat → Bool
  | [], _ => true
  | _ :: _, [] => false
  | m :: a, n :: b => m < n || (m == n && dictionaryLe a b)

end AtomicCss
