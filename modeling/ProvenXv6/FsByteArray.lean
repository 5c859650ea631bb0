import ProvenXv6.FsOwnership

namespace ProvenXv6.Fs
open WeakestPre

section
variable {sb : Superblock} {dev : Devsw} {ip : Ip} {s : FS}

end

def loadRoot (sb : Superblock) : FsM Ip := do
  let ip ← iget ROOTINO
  ilock sb ip
  pure ip

end ProvenXv6.Fs
