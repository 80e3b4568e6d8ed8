import JavaStubs.Descriptor.Basic

namespace JavaStubs.StandardLibrary

def cls (name : String) (args : List Ty := []) : Ty := .cls ⟨name⟩ args

end JavaStubs.StandardLibrary
