import JavaStubs.Descriptor.Index
import JavaStubs.StandardLibrary.Charset
import JavaStubs.StandardLibrary.Function
import JavaStubs.StandardLibrary.Io
import JavaStubs.StandardLibrary.Lang
import JavaStubs.StandardLibrary.Security
import JavaStubs.StandardLibrary.Util

namespace JavaStubs.StandardLibrary

def types : List Descriptor :=
  langTypes ++ ioTypes ++ utilTypes ++ functionTypes ++ securityTypes ++ charsetTypes

def index : DescriptorIndex where
  descriptors := types
  distinct := by decide +kernel

end JavaStubs.StandardLibrary
